import Cgkits.Lex.Rules

/-!
# The calls of `get_expr` (`src/compiler/lex/input.c`)

What one call of `get_expr` does to the lines of a text is carried to a sequence of calls:
`ReadsFrom` says which lines are left, `ReadsFrom.ends` that every sequence of calls ends without a
write outside of the buffer, and `ReadsFrom.exprs_iff` what its results are.  From these `rules_iff`
is drawn.

A section without rules is the exception: the line with the `%` is read as a rule, whatever
characters there are in it.
-/

namespace Lex

open Lines

variable {s s' : RuleInput} {t w : List UInt8} {f : ℕ → UInt8} {k p : ℕ} {n : ℤ}
  {r l c : List UInt8} {ls cs es rest : List (List UInt8)} {fuel : ℕ} {spaceLeft : ℤ}

/-! ## Any characters -/

/-- The number of characters that are left to read, with the one that is ahead. -/
def RuleInput.left (s : RuleInput) : ℕ := s.file.length + if s.lineLookhead = -1 then 0 else 1

/-- `getc` takes a character, or has taken the last one. -/
lemma left_getc (s : RuleInput) : s.getc.left ≤ s.file.length := by
  rw [getc_eq]
  unfold RuleInput.left
  rcases s.file with - | ⟨x, w⟩
  · exact Nat.le_refl _
  · change w.length + (if firstChar (x :: w) = -1 then 0 else 1) ≤ w.length + 1
    split <;> omega

/-- `getc` reads a character of the file and leaves the buffer as it is. -/
lemma inputBuffer_getc (s : RuleInput) : s.getc.inputBuffer = s.inputBuffer := by
  rw [getc_eq]

/-- The loop of `get_line` stays in the buffer, and leaves what is in front of its first character
as it is. -/
lemma lineLoop_total : ∀ {k p : ℕ} {s : RuleInput}, p + k ≤ maxRuleSize →
    ∃ m p' s', s.lineLoop k p = .ok (m, p', s') ∧ p ≤ p' ∧ p' ≤ p + k ∧
      (∀ i < p, s'.inputBuffer i = s.inputBuffer i) ∧
      (m ≠ 0 → p' < p + k ∧ s'.left ≤ s.file.length) := by
  intro k
  induction k with
  | zero =>
    exact fun _ => ⟨0, _, _, rfl, Nat.le_refl _, Nat.le_refl _, fun _ _ => rfl,
      fun h => absurd rfl h⟩
  | succ k ih =>
    intro p s hp
    rw [RuleInput.lineLoop, RuleInput.write, if_pos (by omega)]
    simp only [Bind.bind, Except.bind]
    obtain ⟨s₁, hs₁⟩ : ∃ s₁ : RuleInput, s₁ = { s with
      inputBuffer := Function.update s.inputBuffer p (UInt8.ofInt s.lineLookhead) } := ⟨_, rfl⟩
    have hfile : s₁.file = s.file := by rw [hs₁]
    have hleft : s₁.getc.left ≤ s.file.length := hfile ▸ left_getc s₁
    have hbuf : ∀ i < p, s₁.getc.inputBuffer i = s.inputBuffer i := fun i hi => by
      rw [inputBuffer_getc, hs₁]
      exact Function.update_of_ne (by omega) _ _
    rw [← hs₁]
    by_cases hends : s₁.getc.inputBuffer p = 10 ∨ s₁.getc.inputBuffer p = 255
    · rw [if_pos hends]
      exact ⟨_, _, _, rfl, Nat.le_refl _, by omega, hbuf, fun _ => ⟨by omega, hleft⟩⟩
    · rw [if_neg hends]
      obtain ⟨m, p', s', hrun, hge, hle, hsame, hlt⟩ := ih (p := p + 1) (s := s₁.getc) (by omega)
      refine ⟨m, p', s',
        hrun, by omega, by omega, fun i hi => (hsame i (by omega)).trans (hbuf i hi), fun hm => ?_⟩
      obtain ⟨hlt', hleft'⟩ := hlt hm
      have hfewer : s₁.getc.file.length ≤ s₁.getc.left := Nat.le_add_right _ _
      exact ⟨by omega, Nat.le_trans hleft' (Nat.le_trans hfewer hleft)⟩

/-- The first statement of `get_line` takes a character at most. -/
lemma left_prime (s : RuleInput) : s.prime.left ≤ s.left := by
  unfold RuleInput.prime
  by_cases hzero : s.lineLookhead = 0
  · rw [if_pos hzero]
    exact Nat.le_trans (left_getc s) (Nat.le_add_right _ _)
  · rw [if_neg hzero]

/-- The first statement of `get_line` leaves the buffer as it is. -/
lemma inputBuffer_prime (s : RuleInput) : s.prime.inputBuffer = s.inputBuffer := by
  unfold RuleInput.prime
  split
  · exact inputBuffer_getc s
  · rfl

/-- `get_line` always returns, stays in the buffer, and does not touch what is in front of its
string. -/
lemma getLine_total (hp : p + n ≤ maxRuleSize) : ∃ e p' s', s.getLine p n = .ok (e, p', s') ∧
    p ≤ p' ∧ (∀ i < p, s'.inputBuffer i = s.inputBuffer i) ∧
    (e ≠ -1 → e ≠ 0 → p' < maxRuleSize ∧ s'.left < s.left) := by
  have hprime := left_prime s
  unfold RuleInput.getLine
  dsimp only
  by_cases hread : 0 < n ∧ s.prime.lineLookhead ≠ -1
  · obtain ⟨m, p', s', hrun, hge, hle, hsame, hlt⟩ :=
      lineLoop_total (k := (n - 1).toNat) (p := p) (s := s.prime)
      (by omega)
    rw [if_pos hread, hrun]
    simp only [Bind.bind, Except.bind]
    rw [RuleInput.write, if_pos (by omega)]
    refine ⟨_, _, _, rfl, hge, fun i hi => ?_, fun _ hne => ?_⟩
    · refine (Function.update_of_ne (by omega) _ _).trans ((hsame i hi).trans ?_)
      rw [inputBuffer_prime]
    · have hm : m ≠ 0 := fun hzero => hne (if_pos hzero)
      have hmore : s.prime.left = s.prime.file.length + 1 :=
        congrArg (s.prime.file.length + ·) (if_neg hread.2)
      have hfewer := (hlt hm).2
      refine ⟨by omega, ?_⟩
      change s'.left < s.left
      omega
  · rw [if_neg hread]
    refine ⟨_, _, _, rfl, Nat.le_refl _, fun i _ => by rw [inputBuffer_prime], fun hne hne' => ?_⟩
    by_cases hpos : 0 < n
    · have heof : s.prime.lineLookhead = -1 := by
        by_contra hnot
        exact hread ⟨hpos, hnot⟩
      rw [if_neg (by omega)] at hne
      exact absurd heof hne
    · exact absurd (if_pos (by omega)) hne'

/-- The loop of `get_expr` does not end with a NUL as the lookahead. -/
lemma exprLoop_look : ∀ {fuel p : ℕ} {spaceLeft : ℤ} {s : RuleInput}, s.exprLoop fuel p spaceLeft =
    .ok s' → s'.exprLookhead ≠ 0 := by
  intro fuel
  induction fuel with
  | zero =>
    intro p spaceLeft s hr
    cases hr
  | succ fuel ih =>
    intro p spaceLeft s hr
    rw [RuleInput.exprLoop] at hr
    rcases hline : s.getLine p (spaceLeft - 1) with e | ⟨lookhead, p', s₁⟩
    · rw [hline] at hr
      cases hr
    · rw [hline] at hr
      simp only [Bind.bind, Except.bind] at hr
      by_cases heof : lookhead = -1
      · rw [if_pos heof] at hr
        obtain rfl := Except.ok.inj hr
        change lookhead ≠ 0
        omega
      · rw [if_neg heof] at hr
        by_cases hzero : lookhead = 0
        · rw [if_pos hzero] at hr
          cases hr
        · rw [if_neg hzero] at hr
          by_cases hempty : s₁.inputBuffer 0 = 0
          · rw [if_pos hempty] at hr
            exact ih hr
          · rw [if_neg hempty] at hr
            by_cases hspace : isspace lookhead.toNat = true
            · rw [if_pos hspace, RuleInput.write] at hr
              by_cases hin : p' < maxRuleSize
              · rw [if_pos hin] at hr
                exact ih hr
              · rw [if_neg hin] at hr
                cases hr
            · rw [if_neg hspace] at hr
              obtain rfl := Except.ok.inj hr
              exact hzero

/-- A turn of the loop behind which the rule has begun. -/
lemma exprLoop_turn {e : ℤ} {p' : ℕ} {s₁ : RuleInput}
    (hline : s.getLine p (spaceLeft - 1) = .ok (e, p', s₁)) (hbegun : s₁.inputBuffer 0 ≠ 0)
    (hpos : e ≠ -1 → 0 < p') (hnext : e ≠ -1 → e ≠ 0 → p' < maxRuleSize ∧ s₁.left < fuel)
    (hrest : ∀ {p : ℕ} {spaceLeft : ℤ} {s : RuleInput}, p + spaceLeft ≤ maxRuleSize + 1 →
    s.left < fuel → 0 < p →
      s.inputBuffer 0 ≠ 0 → Ends (s.exprLoop fuel p spaceLeft)) :
    Ends (s.exprLoop (fuel + 1) p spaceLeft) := by
  rw [RuleInput.exprLoop, hline]
  simp only [Bind.bind, Except.bind]
  by_cases heof : e = -1
  · rw [if_pos heof]
    exact .inl ⟨_, rfl⟩
  · rw [if_neg heof]
    by_cases hzero : e = 0
    · rw [if_pos hzero]
      exact .inr rfl
    · obtain ⟨hlt, hleft⟩ := hnext heof hzero
      have hpos' := hpos heof
      rw [if_neg hzero, if_neg hbegun]
      by_cases hspace : isspace e.toNat = true
      · rw [if_pos hspace, RuleInput.write, if_pos hlt]
        refine hrest (by omega) hleft (Nat.succ_pos _) ?_
        change Function.update s₁.inputBuffer p' 10 0 ≠ 0
        rw [Function.update_of_ne (by omega)]
        exact hbegun
      · rw [if_neg hspace]
        exact .inl ⟨_, rfl⟩

/-- Once a rule has begun, the loop of `get_expr` ends, and stays in the buffer. -/
lemma exprLoop_begun : ∀ {fuel p : ℕ} {spaceLeft : ℤ} {s : RuleInput}, p + spaceLeft ≤ maxRuleSize +
    1 → s.left < fuel → 0 < p → s.inputBuffer 0 ≠ 0 → Ends (s.exprLoop fuel p spaceLeft) := by
  intro fuel
  induction fuel with
  | zero => exact fun _ hfuel => absurd hfuel (Nat.not_lt_zero _)
  | succ fuel ih =>
    intro p spaceLeft s hp hfuel hpos hfirst
    obtain ⟨e, p', s₁, hline, hge, hsame, hnext⟩ :=
      getLine_total (s := s) (p := p) (n := spaceLeft - 1) (by omega)
    refine exprLoop_turn hline ?_ (fun _ => Nat.lt_of_lt_of_le hpos hge) (fun hne hne' => ?_) ih
    · rw [hsame 0 hpos]
      exact hfirst
    · obtain ⟨hlt, hleft⟩ := hnext hne hne'
      exact ⟨hlt, Nat.lt_of_lt_of_le hleft (Nat.le_of_lt_succ hfuel)⟩

/-- The loop of `get_expr` ends, and stays in the buffer, when the first character is one of a
rule. -/
lemma exprLoop_first {x : UInt8} (h : s.Pending (x :: w)) (hx : x ≠ 0 ∧ x ≠ 10 ∧ x ≠ 255)
    (hfuel : w.length < fuel) : Ends (s.exprLoop (fuel + 1) 0 maxRuleSize) := by
  obtain ⟨s₁, hs₁⟩ : ∃ s₁ : RuleInput, s₁ = { s with
    inputBuffer := lay s.inputBuffer 0 [x], lineLookhead := firstChar w, file := w.tail } :=
      ⟨_, rfl⟩
  have hsize : maxRuleSize = 20480 := rfl
  have hroom : ((maxRuleSize : ℤ) - 1 - 1).toNat = 20477 + 1 := by omega
  have hturn : s.prime.lineLoop (20477 + 1) 0 = s₁.lineLoop 20477 1 := by
    rw [h, lineLoop_succ (t := x :: w) rfl rfl (by omega), hs₁]
    exact if_neg fun hor => hor.elim hx.2.1 hx.2.2
  obtain ⟨m, p', s', hrun, hge, hle, hsame, hlt⟩ :=
    lineLoop_total (k := 20477) (p := 1) (s := s₁) (by omega)
  have hread : s.prime.lineLookhead ≠ -1 := by
    rw [h]
    exact firstChar_ne (List.cons_ne_nil x w)
  have hline : s.getLine 0 (maxRuleSize - 1) = .ok (if m = 0 then 0 else s'.lineLookhead, p',
      { s' with inputBuffer := Function.update s'.inputBuffer p' 0 }) := by
    unfold RuleInput.getLine
    dsimp only
    rw [if_pos ⟨by omega, hread⟩, hroom, hturn, hrun]
    simp only [Bind.bind, Except.bind]
    rw [RuleInput.write, if_pos (by omega)]
  refine exprLoop_turn hline ?_ (fun _ => hge) (fun _ hne => ?_) exprLoop_begun
  · change Function.update s'.inputBuffer p' 0 0 ≠ 0
    rw [Function.update_of_ne (by omega), hsame 0 Nat.one_pos, hs₁]
    exact hx.1
  · have hm : m ≠ 0 := fun hzero => hne (if_pos hzero)
    have hfewer := (hlt hm).2
    have htail : s₁.file.length ≤ w.length := by
      rw [hs₁]
      exact Nat.le_trans (Nat.le_of_eq List.length_tail) (Nat.sub_le _ _)
    refine ⟨by omega, ?_⟩
    change s'.left < fuel
    omega

/-- Behind a line there is less text than before. -/
lemma length_dropLine (h : t ≠ []) : (dropLine 10 t).length < t.length := by
  have hpos : 0 < t.length := List.length_pos_of_ne_nil h
  have hle := List.length_dropWhile_le (fun x : UInt8 => decide (x ≠ 10)) t
  unfold dropLine
  rw [List.length_tail]
  omega

/-- A line that begins with a character of a rule, behind empty lines. -/
lemma exprLoop_blank {x : UInt8} (hx : x ≠ 0 ∧ x ≠ 10 ∧ x ≠ 255) :
    ∀ {es : List (List UInt8)} {t : List UInt8} {s : RuleInput} {fuel : ℕ}, s.Pending t →
    lines 10 t = es ++ (x :: w) :: rest → (∀ e ∈ es, e = []) → t.length < fuel →
    Ends (s.exprLoop fuel 0 maxRuleSize) := by
  intro es
  induction es with
  | nil =>
    intro t s fuel h hl _ hfuel
    obtain ⟨hne, hline, -⟩ := lines_eq_cons hl
    rcases t with - | ⟨y, v⟩
    · exact absurd rfl hne
    · have hfirst : y = x := by
        by_cases hy : y = 10
        · rw [hy, List.takeWhile_cons_of_neg (by simp)] at hline
          cases hline
        · rw [List.takeWhile_cons_of_pos (by simpa using hy)] at hline
          exact (List.cons.inj hline).1.symm
      rcases fuel with - | fuel
      · exact absurd hfuel (Nat.not_lt_zero _)
      · rw [hfirst] at h
        exact exprLoop_first h hx (Nat.lt_of_succ_lt_succ hfuel)
  | cons e es ih =>
    intro t s fuel h hl hes hfuel
    obtain rfl := hes e List.mem_cons_self
    obtain ⟨hne, -, hrest⟩ := lines_eq_cons hl
    have hless := length_dropLine hne
    rcases fuel with - | fuel
    · omega
    obtain ⟨d, ds, hd, hnul⟩ : ∃ d ds, es ++ (x :: w) :: rest = d :: ds ∧
        lookheadOf (d :: ds) ≠ 0 :=
      exists_next hx.1 fun e he => hes e (List.mem_cons_of_mem _ he)
    have hl' : lines 10 t = [] :: d :: ds := by rw [hl, List.cons_append, hd]
    obtain ⟨s', hrun, hpending⟩ := exprLoop_skip fuel h hl' hnul
    rw [hrun]
    exact ih hpending hrest (fun e he => hes e (List.mem_cons_of_mem _ he)) (by omega)

/-! ## `get_expr` -/

/-- The loop of `get_expr` has enough turns for the text. -/
lemma RuleInput.Pending.length_lt (h : s.Pending t) : t.length < s.file.length + 2 := by
  have htail : t.tail.length ≤ s.file.length := by
    have hfile : s.prime.file = t.tail := congrArg RuleInput.file h
    rw [← hfile]
    unfold RuleInput.prime
    by_cases hzero : s.lineLookhead = 0
    · rw [if_pos hzero, getc_eq]
      change s.file.tail.length ≤ s.file.length
      rw [List.length_tail]
      exact Nat.sub_le _ _
    · rw [if_neg hzero]
  rw [List.length_tail] at htail
  omega

/-- The number of the line of the rule does not matter for what is still to be read. -/
lemma RuleInput.Pending.lineno (h : s.Pending t) (m : ℤ) : { s with lineno := m }.Pending t := by
  have hline : s.prime.lineLookhead = firstChar t := congrArg RuleInput.lineLookhead h
  have hfile : s.prime.file = t.tail := congrArg RuleInput.file h
  unfold RuleInput.Pending
  rw [← hline, ← hfile]
  unfold RuleInput.prime
  by_cases hzero : s.lineLookhead = 0
  · rw [if_pos hzero, if_pos hzero, getc_eq, getc_eq]
  · rw [if_neg hzero, if_neg hzero]

/-- A call of `get_expr` that is not at the end of the section is its loop from the start of the
buffer. -/
lemma getExpr_eq (hlook : s.exprLookhead ≠ 37) : s.getExpr =
    ({ s with lineno := s.actualLineno }.exprLoop (s.file.length + 2) 0 maxRuleSize).map
      fun s' : RuleInput => (decide (s'.exprLookhead ≠ 0), s') := by
  unfold RuleInput.getExpr
  rw [if_neg hlook]
  rfl

/-- A call of `get_expr` skips empty lines and reads a group of lines into the buffer, if the group
fits. -/
lemma getExpr_group (h : s.Pending t) (hlook : s.exprLookhead ≠ 37)
    (hl : lines 10 t = es ++ l :: (cs ++ rest)) (hes : ∀ e ∈ es, e = []) (hne : l ≠ [])
    (hplain : PlainLine l) (hcs : ∀ c ∈ cs, PlainLine c ∧ continues c = true)
    (hstop : ∀ c ∈ rest.head?, continues c = false) (hnul : lookheadOf rest ≠ 0) :
    (FitsRule (l :: cs) → ∃ s' t', s.getExpr = .ok (true, s') ∧ Shown s' (joined 10 (l :: cs)) t' ∧
      lines 10 t' = rest) ∧
    (¬ FitsRule (l :: cs) → s.getExpr = .error .tooLong) := by
  have hfuel : es.length + cs.length < s.file.length + 2 := by
    have hcount := Nat.lt_of_le_of_lt (length_lines_le 10 t) h.length_lt
    rw [hl, List.length_append, List.length_cons, List.length_append] at hcount
    omega
  have hpending := h.lineno s.actualLineno
  obtain ⟨hfits, hlong⟩ := exprLoop_group hpending hl hes hne hplain hcs hstop hnul hfuel
  rw [getExpr_eq hlook]
  constructor
  · intro hfit
    obtain ⟨s', t', hrun, hshown, hrest⟩ := hfits hfit
    refine ⟨s', t', ?_, hshown, hrest⟩
    have hfound : s'.exprLookhead ≠ 0 := by rw [hshown.look, firstChar_eq, hrest]; exact hnul
    rw [hrun, ← decide_eq_true hfound]
    rfl
  · intro hnot
    rw [hlong hnot]
    rfl

/-- Without `%` as the lookahead the result is not `NULL`. -/
lemma getExpr_found {found : Bool} (hlook : s.exprLookhead ≠ 37)
    (hr : s.getExpr = .ok (found, s')) : found = true := by
  rw [getExpr_eq hlook] at hr
  cases hrun : ({ s with lineno := s.actualLineno }.exprLoop (s.file.length + 2) 0 maxRuleSize) with
  | error e =>
    rw [hrun] at hr
    cases hr
  | ok s'' =>
    rw [hrun] at hr
    obtain ⟨rfl, -⟩ := Prod.mk.inj (Except.ok.inj hr)
    exact decide_eq_true (exprLoop_look hrun)

/-- At the end of the file the result is not `NULL`, and the file is still at its end. -/
lemma getExpr_eof (h : s.Pending []) (hlook : s.exprLookhead = -1) :
    ∃ s', s.getExpr = .ok (true, s') ∧ s'.Pending [] ∧ s'.exprLookhead = -1 := by
  have hpending := h.lineno s.actualLineno
  have hsize : maxRuleSize = 20480 := rfl
  rw [getExpr_eq (by omega), exprLoop_eof hpending (by omega)]
  exact ⟨_, rfl, if_neg (by decide : ¬ (-1 : ℤ) = 0), rfl⟩

/-! ## The calls -/

variable {body post : List (List UInt8)} {rs : List (List UInt8)}

/-- The lines of rules that are left, with empty lines in front of them, and those behind the
section. -/
structure ReadsFrom (s : RuleInput) (body post : List (List UInt8)) : Prop where
  /-- They are the rest of the text. -/
  pending : ∃ t es, s.Pending t ∧ lines 10 t = es ++ (body ++ post) ∧ (∀ e ∈ es, e = []) ∧
    (body = [] → es = [])
  /-- Without rules the lookahead is what follows. -/
  behind : body = [] → s.exprLookhead = lookheadOf post
  /-- With rules it is not `%`. -/
  look : body ≠ [] → s.exprLookhead ≠ 37
  /-- The first rule begins with a line that is not empty. -/
  head : body.head? ≠ some []
  /-- The lines of the rule can be read into the buffer. -/
  plain : ∀ l ∈ body, PlainLine l ∧ l.head? ≠ some 37
  /-- The section ends at a line that starts with `%` or at the end of the file. -/
  percent : ∀ l ∈ post.head?, l.head? = some 37

/-- A line that starts with `%` consists of it and the rest. -/
lemma exists_percent (h : l.head? = some 37) : ∃ w, l = 37 :: w := by
  rcases l with - | ⟨x, w⟩
  · cases h
  · exact ⟨w, by rw [Option.some.inj h]⟩

/-- The lookahead in front of the lines that are left. -/
lemma lookheadOf_ne (hplain : ∀ l ∈ body, PlainLine l ∧ l.head? ≠ some 37)
    (hpost : ∀ l ∈ post.head?, l.head? = some 37) :
    lookheadOf (body ++ post) ≠ 0 ∧ (body ≠ [] → lookheadOf (body ++ post) ≠ 37) := by
  rcases body with - | ⟨l, ls⟩
  · refine ⟨?_, fun h => absurd rfl h⟩
    rcases post with - | ⟨l, ls⟩
    · exact (by decide : (-1 : ℤ) ≠ 0)
    · obtain ⟨w, rfl⟩ := exists_percent (hpost l rfl)
      exact (by decide : (37 : ℤ) ≠ 0)
  · obtain ⟨hl, hhead⟩ := hplain l List.mem_cons_self
    rcases l with - | ⟨x, w⟩
    · exact ⟨(by decide : (10 : ℤ) ≠ 0), fun _ => (by decide : (10 : ℤ) ≠ 37)⟩
    · have hnul : x ≠ 0 := (hl x List.mem_cons_self).1
      have hpercent : x ≠ 37 := fun h => hhead (congrArg some h)
      refine ⟨fun h => hnul (UInt8.toNat_inj.mp ?_), fun _ h => hpercent (UInt8.toNat_inj.mp ?_)⟩
      · exact Int.ofNat_inj.mp h
      · exact Int.ofNat_inj.mp h

/-- A call of `get_expr` returns the text of the next group, if the group fits, and ends with an
error if it does not. -/
lemma ReadsFrom.getExpr (h : ReadsFrom s (l :: ls) post) :
    (FitsRule (l :: ls.takeWhile continues) → ∃ s', s.getExpr = .ok (true, s') ∧
      s'.text = joined 10 (l :: ls.takeWhile continues) ∧
      ReadsFrom s' (ls.dropWhile continues) post) ∧
    (¬ FitsRule (l :: ls.takeWhile continues) → s.getExpr = .error .tooLong) := by
  obtain ⟨t, es, hpending, hl, hes, -⟩ := h.pending
  have hsplit :
      lines 10 t = es ++ l :: (ls.takeWhile continues ++ (ls.dropWhile continues ++ post)) := by
    rw [hl, ← List.append_assoc (ls.takeWhile continues), List.takeWhile_append_dropWhile]
    rfl
  have hne : l ≠ [] := fun hnil => h.head (congrArg some hnil)
  have hdrop : ∀ c ∈ ls.dropWhile continues, PlainLine c ∧ c.head? ≠ some 37 := fun c hc =>
    h.plain c (List.mem_cons_of_mem _ ((List.dropWhile_suffix _).subset hc))
  have htake : ∀ c ∈ ls.takeWhile continues, PlainLine c ∧ continues c = true := fun c hc =>
    ⟨(h.plain c (List.mem_cons_of_mem _ ((List.takeWhile_prefix _).subset hc))).1,
      List.mem_takeWhile_imp hc⟩
  have hhead : ∀ c ∈ (ls.dropWhile continues).head?, continues c = false := fun c hc => by
    have hnot := List.head?_dropWhile_not continues ls
    rw [hc] at hnot
    exact hnot
  have hstop : ∀ c ∈ (ls.dropWhile continues ++ post).head?, continues c = false := fun c hc => by
    rcases hcase : ls.dropWhile continues with - | ⟨d, ds⟩
    · rw [hcase] at hc
      obtain ⟨w, rfl⟩ := exists_percent (h.percent c hc)
      rfl
    · rw [hcase] at hc hhead
      exact hhead c hc
  obtain ⟨hnul, hlook⟩ := lookheadOf_ne hdrop h.percent
  obtain ⟨hfits, hlong⟩ := getExpr_group hpending (h.look (List.cons_ne_nil _ _)) hsplit hes hne
    (h.plain l List.mem_cons_self).1 htake hstop hnul
  refine ⟨fun hfit => ?_, hlong⟩
  obtain ⟨s', t', hrun, hshown, hrest⟩ := hfits hfit
  have hseen : s'.exprLookhead = lookheadOf (ls.dropWhile continues ++ post) := by
    rw [hshown.look, firstChar_eq, hrest]
  have hnone : ∀ e ∈ ([] : List (List UInt8)), e = [] := fun e he => absurd he List.not_mem_nil
  refine ⟨s', hrun, hshown.text, ⟨t', [], hshown.pending, hrest, hnone, fun _ => rfl⟩, fun hnil =>
    ?_,
    fun hmore => hseen ▸ hlook hmore, fun hempty => ?_, hdrop, h.percent⟩
  · rw [hseen, hnil]
    rfl
  · exact absurd (hhead [] hempty) (by decide)

/-- A call of `get_expr` at the end of the file returns the old text again. -/
lemma ReadsFrom.getExpr_eof (h : ReadsFrom s [] []) : ∃ s', s.getExpr = .ok (true, s') ∧
    ReadsFrom s' [] [] := by
  obtain ⟨t, es, hpending, hl, -, hes⟩ := h.pending
  rw [hes rfl] at hl
  obtain rfl := lines_eq_nil.mp hl
  obtain ⟨s', hrun, hpending', hlook'⟩ := Lex.getExpr_eof hpending (h.behind rfl)
  have hnone : ∀ e ∈ ([] : List (List UInt8)), e = [] := fun e he => absurd he List.not_mem_nil
  exact ⟨s', hrun, ⟨[], [], hpending', rfl, hnone, fun _ => rfl⟩, fun _ => hlook', fun hne =>
    absurd rfl hne, h.head,
    h.plain, h.percent⟩

/-- A call of `get_expr` in front of a line that starts with `%`. -/
lemma ReadsFrom.getExpr_percent (h : ReadsFrom s [] post) (hne : post ≠ []) :
    s.getExpr = .ok (false, s) := by
  rcases post with - | ⟨l, ls⟩
  · exact absurd rfl hne
  · obtain ⟨w, rfl⟩ := exists_percent (h.percent l rfl)
    exact if_pos (h.behind rfl)

/-- The results of some calls are the result of the first one and those of the others. -/
lemma exprs_succ {found : Bool} (h : s.getExpr = .ok (found, s')) (m : ℕ) :
    s.exprs (m + 1) = (s'.exprs m).map ((if found then some s'.text else none) :: ·) := by
  rw [RuleInput.exprs, h]
  rfl

/-- When a run ends, it still ends when its result is changed. -/
lemma Ends.map {α β : Type} {e : Except RuleFault α} (h : Ends e) (f : α → β) : Ends (e.map f) := by
  rcases h with ⟨x, rfl⟩ | rfl
  · exact .inl ⟨f x, rfl⟩
  · exact .inr rfl

/-- Run lemma: every sequence of calls ends, with results or with an error. -/
lemma ReadsFrom.ends (m : ℕ) : ∀ {s body}, ReadsFrom s body post → Ends (s.exprs m) := by
  induction m with
  | zero => exact fun _ => .inl ⟨_, rfl⟩
  | succ m ih =>
    intro s body h
    rcases body with - | ⟨l, ls⟩
    · by_cases hpost : post = []
      · subst hpost
        obtain ⟨s', hrun, h'⟩ := h.getExpr_eof
        rw [exprs_succ hrun]
        exact (ih h').map _
      · rw [exprs_succ (h.getExpr_percent hpost)]
        exact (ih h).map _
    · by_cases hfit : FitsRule (l :: ls.takeWhile continues)
      · obtain ⟨s', hrun, -, h'⟩ := h.getExpr.1 hfit
        rw [exprs_succ hrun]
        exact (ih h').map _
      · rw [RuleInput.exprs, h.getExpr.2 hfit]
        exact .inr rfl

/-- The results of some calls begin with a result exactly when the first call returns it and the
others return the rest. -/
lemma exprs_eq_cons_iff {found : Bool} {r : Option (List UInt8)}
    {results : List (Option (List UInt8))} (h : s.getExpr = .ok (found, s')) {m : ℕ} :
    s.exprs (m + 1) = .ok (r :: results) ↔
      r = (if found then some s'.text else none) ∧ s'.exprs m = .ok results := by
  rw [exprs_succ h]
  cases s'.exprs m with
  | error e => simp [Except.map]
  | ok x => simp [Except.map, eq_comm]

/-- Run lemma: the results are the groups and `NULL`, when the section ends at a line that starts
with `%` and every group fits into the buffer. -/
lemma ReadsFrom.exprs_iff : ∀ {rs body s}, ReadsFrom s body post →
    (s.exprs (rs.length + 1) = .ok (rs.map some ++ [none]) ↔
      post ≠ [] ∧ rs = (groups continues body).map (joined 10) ∧
      ∀ g ∈ groups continues body, FitsRule g) := by
  intro rs
  induction rs with
  | nil =>
    intro body s h
    rcases body with - | ⟨l, ls⟩
    · have hnil : groups continues ([] : List (List UInt8)) = [] := by rw [groups]
      rw [hnil]
      by_cases hpost : post = []
      · subst hpost
        obtain ⟨s', hrun, -⟩ := h.getExpr_eof
        refine iff_of_false (fun hall => ?_) fun hand => hand.1 rfl
        cases ((exprs_eq_cons_iff hrun).mp hall).1
      · refine iff_of_true ?_ ⟨hpost, rfl, fun g hg => absurd hg List.not_mem_nil⟩
        exact (exprs_eq_cons_iff (h.getExpr_percent hpost)).mpr ⟨rfl, rfl⟩
    · have hne : l ≠ [] := fun hnil => h.head (congrArg some hnil)
      rw [groups_cons hne]
      refine iff_of_false (fun hall => ?_) fun hand => by cases hand.2.1
      by_cases hfit : FitsRule (l :: ls.takeWhile continues)
      · obtain ⟨s', hrun, -, -⟩ := h.getExpr.1 hfit
        cases ((exprs_eq_cons_iff hrun).mp hall).1
      · rw [RuleInput.exprs, h.getExpr.2 hfit] at hall
        cases hall
  | cons r rs ih =>
    intro body s h
    rcases body with - | ⟨l, ls⟩
    · have hnil : groups continues ([] : List (List UInt8)) = [] := by rw [groups]
      rw [hnil]
      refine iff_of_false (fun hall => ?_) fun hand => by cases hand.2.1
      by_cases hpost : post = []
      · subst hpost
        obtain ⟨s', hrun, h'⟩ := h.getExpr_eof
        exact ((ih h').mp ((exprs_eq_cons_iff hrun).mp hall).2).1 rfl
      · cases ((exprs_eq_cons_iff (h.getExpr_percent hpost)).mp hall).1
    · have hne : l ≠ [] := fun hnil => h.head (congrArg some hnil)
      rw [groups_cons hne, List.forall_mem_cons, List.map_cons (f := joined 10), List.cons.injEq]
      by_cases hfit : FitsRule (l :: ls.takeWhile continues)
      · obtain ⟨s', hrun, htext, h'⟩ := h.getExpr.1 hfit
        refine (exprs_eq_cons_iff hrun).trans ?_
        rw [if_pos rfl, htext, Option.some.injEq]
        refine (and_congr_right fun _ => ih h').trans ?_
        constructor
        · rintro ⟨hr, hpost, hrs, hall⟩
          exact ⟨hpost, ⟨hr, hrs⟩, hfit, hall⟩
        · rintro ⟨hpost, ⟨hr, hrs⟩, -, hall⟩
          exact ⟨hr, hpost, hrs, hall⟩
      · refine iff_of_false (fun hall => ?_) fun hand => hfit hand.2.2.1
        rw [RuleInput.exprs, h.getExpr.2 hfit] at hall
        cases hall

/-! ## The section -/

/-- The first call reads from the lines of the section. -/
lemma start_readsFrom {m : ℤ} (hl : lines 10 t = es ++ (body ++ post)) (hes : ∀ e ∈ es, e = [])
    (hne : body ≠ []) (hhead : body.head? ≠ some [])
    (hplain : ∀ l ∈ body, PlainLine l ∧ l.head? ≠ some 37)
    (hpost : ∀ l ∈ post.head?, l.head? = some 37) : ReadsFrom (.start f t m) body post :=
  ⟨⟨t, es, getc_eq _, hl, hes, fun h => absurd h hne⟩, fun h => absurd h hne,
    fun _ => (by decide : (0 : ℤ) ≠ 37), hhead, hplain, hpost⟩

/-- The lines of the section, without the empty ones in front, and those behind it. -/
lemma exists_ruleSection (t : List UInt8) : ∃ es body post, lines 10 t = es ++ (body ++ post) ∧
    ruleSection t = es ++ body ∧ (∀ e ∈ es, e = []) ∧ body = (ruleSection t).dropWhile (·.isEmpty) ∧
      body.head? ≠ some [] ∧ (∀ l ∈ body, l.head? ≠ some 37) ∧
      (∀ l ∈ post.head?, l.head? = some 37) ∧
        (post ≠ [] ↔ ∃ l ∈ lines 10 t, l.head? = some 37) := by
  have hsplit : (ruleSection t).takeWhile (·.isEmpty) ++ (ruleSection t).dropWhile (·.isEmpty) =
      ruleSection t :=
    List.takeWhile_append_dropWhile
  have hall : ruleSection t ++ (lines 10 t).dropWhile (·.head? ≠ some 37) = lines 10 t :=
    List.takeWhile_append_dropWhile
  refine ⟨(ruleSection t).takeWhile (·.isEmpty), (ruleSection t).dropWhile (·.isEmpty),
    (lines 10 t).dropWhile (·.head? ≠ some 37), ?_, hsplit.symm, fun e he => ?_, rfl, fun hempty =>
      ?_, fun l hl => ?_,
    fun l hl => ?_, ?_⟩
  · rw [← List.append_assoc, hsplit, hall]
  · exact List.isEmpty_iff.mp (List.mem_takeWhile_imp he)
  · have hnot := List.head?_dropWhile_not (·.isEmpty) (ruleSection t)
    rw [hempty] at hnot
    exact absurd hnot (by decide)
  · have hmem : l ∈ (lines 10 t).takeWhile (·.head? ≠ some 37) :=
      (List.dropWhile_suffix _).subset hl
    simpa using List.mem_takeWhile_imp hmem
  · have hnot :=
      List.head?_dropWhile_not (fun l : List UInt8 => decide (l.head? ≠ some 37)) (lines 10 t)
    rw [hl] at hnot
    simpa using hnot
  · rw [Ne, List.dropWhile_eq_nil_iff]
    simp

/-- The result of the first call is never `NULL`. -/
lemma exprs_one_ne {m : ℤ} : (RuleInput.start f t m).exprs 1 ≠ .ok [none] := by
  intro hall
  have hlook : (RuleInput.start f t m).exprLookhead ≠ 37 := (by decide : (0 : ℤ) ≠ 37)
  rcases hrun : (RuleInput.start f t m).getExpr with e | ⟨found, s'⟩
  · rw [RuleInput.exprs, hrun] at hall
    cases hall
  · obtain rfl := getExpr_found hlook hrun
    cases ((exprs_eq_cons_iff hrun).mp hall).1

/-- The loop of `get_expr` on empty lines up to the end of the file. -/
lemma exprLoop_empty : ∀ {es : List (List UInt8)} {t : List UInt8} {s : RuleInput}
    {fuel : ℕ}, s.Pending t → lines 10 t = es → (∀ e ∈ es, e = []) → es.length < fuel →
    Ends (s.exprLoop fuel 0 maxRuleSize) := by
  have hsize : maxRuleSize = 20480 := rfl
  intro es
  induction es with
  | nil =>
    intro t s fuel h hl _ hfuel
    obtain rfl := lines_eq_nil.mp hl
    obtain ⟨fuel, rfl⟩ := Nat.exists_eq_add_of_lt hfuel
    exact .inl ⟨_, exprLoop_eof h (by omega)⟩
  | cons e es ih =>
    intro t s fuel h hl hes hfuel
    obtain rfl := hes e List.mem_cons_self
    rcases fuel with - | fuel
    · exact absurd hfuel (Nat.not_lt_zero _)
    rcases es with - | ⟨d, es⟩
    · rw [exprLoop_line h hl (fun x hx => absurd hx List.not_mem_nil)
        (by rw [List.length_nil]; omega) (by omega)]
      exact .inl ⟨_, rfl⟩
    · obtain rfl := hes d (List.mem_cons_of_mem _ List.mem_cons_self)
      obtain ⟨s', hrun, hpending⟩ := exprLoop_skip fuel h hl (by decide : (10 : ℤ) ≠ 0)
      rw [hrun]
      exact ih hpending (lines_eq_cons hl).2.2 (fun e he => hes e (List.mem_cons_of_mem _ he))
        (Nat.lt_of_succ_lt_succ hfuel)

/-- When no rule stands in front of the `%%` the first call ends. -/
lemma ends_blank {m : ℤ} (hl : lines 10 t = es ++ post) (hes : ∀ e ∈ es, e = [])
    (hpost : ∀ l ∈ post.head?, l.head? = some 37) {k : ℕ} (hk : k ≤ 1) :
    Ends ((RuleInput.start f t m).exprs k) := by
  have hpending : (RuleInput.start f t m).Pending t := getc_eq _
  have hcall : Ends (RuleInput.start f t m).getExpr := by
    rw [getExpr_eq (by decide : (0 : ℤ) ≠ 37)]
    refine Ends.map ?_ _
    rcases post with - | ⟨l, ls⟩
    · rw [List.append_nil] at hl
      have hcount := Nat.lt_of_le_of_lt (length_lines_le 10 t) hpending.length_lt
      rw [hl] at hcount
      exact exprLoop_empty (hpending.lineno _) hl hes hcount
    · obtain ⟨w, rfl⟩ := exists_percent (hpost l rfl)
      exact exprLoop_blank (by decide) (hpending.lineno _) hl hes hpending.length_lt
  rcases Nat.le_one_iff_eq_zero_or_eq_one.mp hk with rfl | rfl
  · exact .inl ⟨_, rfl⟩
  · rcases hcall with ⟨⟨found, s'⟩, hrun⟩ | hrun
    · rw [exprs_succ hrun]
      exact .inl ⟨_, rfl⟩
    · rw [RuleInput.exprs, hrun]
      exact .inr rfl

/-- The calls of `get_expr` end and stay in the buffer, and their results are the logical rules with
`NULL` behind them if and only if the text has a form in which they can be read. -/
theorem rules_iff {m : ℤ} (hplain : ∀ l ∈ ruleSection t, PlainLine l) :
    (∀ k ≤ (logicalRules t).length + 1, Ends ((RuleInput.start f t m).exprs k)) ∧
    ((RuleInput.start f t m).exprs ((logicalRules t).length + 1) =
    .ok ((logicalRules t).map some ++ [none]) ↔
      ReadableRules t) := by
  obtain ⟨es, body, post, hl, hsection, hes, hbody, hhead, hpercent, hpost, hclosed⟩ :=
    exists_ruleSection t
  have hrules : logicalRules t = (groups startsWithSpace body).map (joined 10) := by
    unfold logicalRules
    rw [hsection, groups_append hes]
  by_cases hne : body = []
  · subst hne
    have hnone : logicalRules t = [] := by rw [hrules, groups]; rfl
    rw [hnone]
    refine ⟨fun k hk => ends_blank hl hes hpost hk, iff_of_false exprs_one_ne fun h => ?_⟩
    obtain ⟨l, hmem, hfound⟩ := h.found
    rw [hsection, List.append_nil] at hmem
    exact hfound (hes l hmem)
  · have hreads : ReadsFrom (.start f t m) body post :=
      start_readsFrom hl hes hne hhead (fun l hmem =>
      ⟨hplain l (hsection ▸ List.mem_append_right es hmem), hpercent l hmem⟩) hpost
    refine ⟨fun k _ => hreads.ends k, hreads.exprs_iff.trans ?_⟩
    have hgroups : [] ∉ body → groups continues body = groups startsWithSpace body := fun hblank =>
      groups_congr fun l hmem => by
        rcases l with - | ⟨x, w⟩
        · exact absurd hmem hblank
        · rfl
    have hfits : groups startsWithSpace (ruleSection t) = groups startsWithSpace body := by
      rw [hsection, groups_append hes]
    constructor
    · rintro ⟨hpercent', hsame, hfit⟩
      rw [hrules] at hsame
      have hcont : continues [] = true := rfl
      have hstarts : startsWithSpace [] = false := rfl
      have hblank := nil_notMem_of_joined hcont hstarts hhead hsame.symm
      refine ⟨hclosed.mp hpercent', ?_, hbody ▸ hblank, fun g hg => hfit g ?_⟩
      · obtain ⟨l, hmem⟩ := List.exists_mem_of_ne_nil body hne
        exact ⟨l, hsection ▸ List.mem_append_right es hmem, fun hnil => hblank (hnil ▸ hmem)⟩
      · rw [hgroups hblank, ← hfits]
        exact hg
    · intro h
      have hblank : [] ∉ body := hbody ▸ h.noBlank
      rw [hgroups hblank, hrules, ← hfits]
      exact ⟨hclosed.mpr h.closed, rfl, h.fits⟩

/-- A rule of two lines is returned as one text, and `NULL` follows at the end of the section. -/
theorem rules_iff_continued :
    (RuleInput.start (fun _ => 0) [97, 10, 32, 98, 10, 37, 37, 10] 1).exprs 2 =
    .ok [some [97, 10, 32, 98], none] := by
  have hsection : ruleSection [97, 10, 32, 98, 10, 37, 37, 10] = [[97], [32, 98]] := by decide
  have hgroups : groups startsWithSpace [[97], [32, 98]] = [[[97], [32, 98]]] := by
    rw [groups_cons (List.cons_ne_nil _ _)]
    change [[97], [32, 98]] :: groups startsWithSpace [] = _
    rw [groups]
  have hrules : logicalRules [97, 10, 32, 98, 10, 37, 37, 10] = [[97, 10, 32, 98]] := by
    unfold logicalRules
    rw [hsection, hgroups]
    rfl
  have hplain : ∀ l ∈ ruleSection [97, 10, 32, 98, 10, 37, 37, 10], PlainLine l := by
    rw [hsection]
    simp [PlainLine]
  have hreadable : ReadableRules [97, 10, 32, 98, 10, 37, 37, 10] := by
    refine ⟨⟨[37, 37], by decide, rfl⟩, ⟨[97], by decide, by decide⟩, by decide, fun g hg => ?_⟩
    rw [hsection, hgroups] at hg
    obtain rfl := List.mem_singleton.mp hg
    exact .inl (by decide)
  have hall := (rules_iff (f := fun _ => 0) (m := 1) hplain).2.mpr hreadable
  rw [hrules] at hall
  exact hall

/-- At the end of the file the last rule is read again and again. -/
theorem not_rules_eof : ¬ ∀ f t m, (∀ l ∈ ruleSection t, PlainLine l) →
    (∀ r ∈ logicalRules t, r.length < maxRuleSize) →
    (RuleInput.start f t m).exprs ((logicalRules t).length + 1) =
    .ok ((logicalRules t).map some ++ [none]) := by
  intro hall
  have hplain : ∀ l ∈ [[(97 : UInt8)]], PlainLine l ∧ l.head? ≠ some 37 := by
    simp [PlainLine]
  have hsection : ruleSection [97, 10] = [[97]] := by decide
  have hrules : logicalRules [97, 10] = [[97]] := by
    unfold logicalRules
    rw [hsection, groups_cons (List.cons_ne_nil _ _)]
    change ([[97]] :: groups startsWithSpace []).map (joined 10) = _
    rw [groups]
    rfl
  have hl : lines (10 : UInt8) [97, 10] = [] ++ ([[97]] ++ []) := by decide
  have hreads : ReadsFrom (.start (fun _ => 0) [97, 10] 1) [[97]] [] :=
    start_readsFrom hl (fun e he => absurd he List.not_mem_nil) (by decide) (by decide) hplain
      fun l hl => by cases hl
  have hcalls := hall (fun _ => 0) [97, 10] 1 (by
    rw [hsection]
    exact fun l hl => (hplain l hl).1) (by rw [hrules]; decide)
  exact (hreads.exprs_iff.mp hcalls).1 rfl

end Lex
