import Cgkits.Lib.Predictive

/-!
# Attributes of a predictive parser

Beside its stack of symbols a predictive parser can have a stack of values.  When a symbol is
replaced, every new symbol gets the value of the old one, as its own value (`right`) and as the
value of its left-hand side (`left`).  An action reads the value of its left-hand side, and it reads
and changes the values of the symbols behind it on its right-hand side.

`Evals` evaluates the symbols of a right-hand side recursively, each nonterminal as a call with its
value as the argument. This is what the parser computes, as long as every action stands in front of
as many symbols as it changes (`reaches_iff_evals`).
-/

namespace Attributed

open Predictive Relation

/-- A table whose actions compute with values: an action may set the values of the symbols that
stand behind it on its right-hand side. -/
structure Scheme (σ τ κ V S : Type*) extends Table σ τ κ where
  /-- The number of the symbols behind an action on its right-hand side. -/
  arity : σ → ℕ
  /-- What an action does, with the value of the left-hand side and those of the symbols behind
  it. -/
  act : σ → V → List V → S → S × List V
  /-- There are as many values as before. -/
  length_act : ∀ a l rs s, (act a l rs s).2.length = rs.length
  /-- What a token does that is matched. -/
  shift : τ → S → S

/-- A symbol on the stack, with its own value and that of the left-hand side it came from. -/
structure Cell (σ V : Type*) where
  /-- The symbol that the cell stands for. -/
  sym : σ
  /-- The value of the left-hand side. -/
  left : V
  /-- The value of the symbol, which is `$$` of its right-hand side. -/
  right : V

/-- A state of the parser with values: the stack, the input and what has been done. -/
structure Config (σ τ V S : Type*) where
  /-- The stack, the top first. -/
  stack : List (Cell σ V)
  /-- The tokens that have not been matched. -/
  input : List τ
  /-- What the actions and the tokens have done. -/
  state : S

variable {σ τ κ V S : Type*}

/-- Symbols of one right-hand side on the stack. -/
def cells (l : V) (form : List (σ × V)) : List (Cell σ V) := form.map fun x => ⟨x.1, l, x.2⟩

/-- The cells on top of the stack get the values of a list, and the cells below keep theirs. -/
def setRights (γ : List (Cell σ V)) (rs : List V) : List (Cell σ V) :=
  List.zipWith (fun c r => { c with right := r }) γ rs ++ γ.drop rs.length

/-- The symbols of a right-hand side get the value of the left-hand side. -/
def inherit (δ : List σ) (r : V) : List (σ × V) := δ.map fun x => (x, r)

variable (T : Scheme σ τ κ V S) (d : ℕ)

/-- A move of the parser with a stack of size `d`: an action is run, a token is matched, or a
nonterminal is replaced. -/
inductive Step : Config σ τ V S → Config σ τ V S → Prop
  /-- An action on top is executed and popped. -/
  | action {a : σ} {l r : V} {γ : List (Cell σ V)} {u : List τ} {s : S} (ha : T.kind a = .action) :
      Step ⟨⟨a, l, r⟩ :: γ, u, s⟩
      ⟨setRights γ (T.act a l ((γ.take (T.arity a)).map Cell.right) s).2, u,
        (T.act a l ((γ.take (T.arity a)).map Cell.right) s).1⟩
  /-- A terminal on top is matched with the first token. -/
  | terminal {c : Cell σ V} {γ : List (Cell σ V)} {t : τ} {u : List τ} {s : S}
      (hx : T.kind c.sym = .terminal (T.code t)) : Step ⟨c :: γ, t :: u, s⟩ ⟨γ, u, T.shift t s⟩
  /-- A nonterminal on top is replaced by its right-hand side. -/
  | replace {c : Cell σ V} {γ : List (Cell σ V)} {δ : List σ} {u : List τ} {s : S}
      (hA : T.kind c.sym = .nonterminal) (hnext : T.next c.sym (u.head?.map T.code) = some δ)
      (hroom : Room d δ (γ.map Cell.sym)) :
      Step ⟨c :: γ, u, s⟩ ⟨cells c.right (inherit δ c.right) ++ γ, u, s⟩

/-- `Evals d l form u v s s'`: the symbols `form` of a right-hand side, each with its value, are
evaluated from the input `u` to the input `v`, and from the state `s` to the state `s'`.  The value
of the left-hand side is `l`, and there is room for `d` symbols. -/
inductive Evals : ℕ → V → List (σ × V) → List τ → List τ → S → S → Prop
  /-- No symbol is left, and nothing happens. -/
  | nil {d : ℕ} {l : V} (u : List τ) (s : S) : Evals d l [] u u s s
  /-- An action in front is executed before the others. -/
  | action {d : ℕ} {l r : V} {a : σ} {rest : List (σ × V)} {u v : List τ} {s s' : S}
      (ha : T.kind a = .action)
      (h : Evals d l ((rest.map Prod.fst).zip (T.act a l (rest.map Prod.snd) s).2) u v
        (T.act a l (rest.map Prod.snd) s).1 s') : Evals d l ((a, r) :: rest) u v s s'
  /-- A terminal in front is matched before the others. -/
  | terminal {d : ℕ} {l r : V} {x : σ} {rest : List (σ × V)} {t : τ} {u v : List τ} {s s' : S}
      (hx : T.kind x = .terminal (T.code t)) (h : Evals d l rest u v (T.shift t s) s') :
      Evals d l ((x, r) :: rest) (t :: u) v s s'
  /-- A nonterminal: its right-hand side is evaluated with its value. -/
  | replace {d : ℕ} {l r : V} {A : σ} {rest : List (σ × V)} {δ : List σ} {u m v : List τ}
      {s s₁ s' : S} (hA : T.kind A = .nonterminal) (hnext : T.next A (u.head?.map T.code) = some δ)
      (hroom : Room d δ (rest.map Prod.fst)) (hcall : Evals (d - rest.length) r (inherit δ r) u m s
      s₁) (h : Evals d l rest m v s₁ s') : Evals d l ((A, r) :: rest) u v s s'

/-- Every action stands in front of as many symbols as it changes. -/
def Placed : List σ → Prop
  | [] => True
  | a :: rest => (T.kind a = .action → T.arity a = rest.length) ∧ Placed rest

variable {T d} {γ : List (Cell σ V)} {form : List (σ × V)} {u v : List τ} {s s' : S} {l : V}
  {rs : List V} {c c₁ c₂ : Config σ τ V S}

/-! ## Cells -/

/-- Setting values does not change the symbols on the stack. -/
@[simp] lemma map_sym_setRights (γ : List (Cell σ V)) (rs : List V) :
    (setRights γ rs).map Cell.sym = γ.map Cell.sym := by
  unfold setRights
  induction γ generalizing rs with
  | nil => simp
  | cons c γ ih =>
    cases rs with
    | nil => simp
    | cons r rs => simpa using ih rs

/-- The cells of a right-hand side hold its symbols, in the same order. -/
@[simp] lemma map_sym_cells (l : V) (form : List (σ × V)) :
    (cells l form).map Cell.sym = form.map Prod.fst := by
  simp [cells]

/-- The right values of the cells of a right-hand side are the values beside its symbols. -/
@[simp] lemma map_right_cells (l : V) (form : List (σ × V)) :
    (cells l form).map Cell.right = form.map Prod.snd := by
  simp [cells]

/-- A right-hand side takes as many cells as it has symbols. -/
@[simp] lemma length_cells (l : V) (form : List (σ × V)) : (cells l form).length = form.length :=
  List.length_map _

/-- The symbols of a right-hand side with the value that they inherit. -/
@[simp] lemma map_fst_inherit (δ : List σ) (r : V) : (inherit δ r).map Prod.fst = δ := by
  simp [inherit, Function.comp_def]

/-- New values for a whole right-hand side on top of the stack give the cells of the same symbols
with these values. -/
lemma setRights_cells (hlen : rs.length = form.length) (γ : List (Cell σ V)) :
    setRights (cells l form ++ γ) rs = cells l ((form.map Prod.fst).zip rs) ++ γ := by
  unfold setRights cells
  induction form generalizing rs with
  | nil =>
    obtain rfl := List.length_eq_zero_iff.mp hlen
    simp
  | cons x form ih =>
    cases rs with
    | nil => simp at hlen
    | cons r rs => simpa using ih (Nat.succ.inj hlen)

/-- An action in front of its own right-hand side sees exactly the values of the symbols behind
it. -/
lemma act_cells {a : σ} (harity : T.arity a = (form.map Prod.fst).length) (γ : List (Cell σ V))
    (s : S) : T.act a l (((cells l form ++ γ).take (T.arity a)).map Cell.right) s = T.act a l
    (form.map Prod.snd) s := by
  rw [harity, List.length_map, List.take_left' (length_cells l form), map_right_cells]

/-! ## The parser without values -/

/-- When the values are forgotten, a move is a move of the parser that has no values. -/
lemma Step.erase (h : Step T d c c₁) (fs : List (σ ⊕ τ)) : ∃ fs', Predictive.Step T.toTable d
    ⟨c.stack.map Cell.sym, c.input, fs⟩ ⟨c₁.stack.map Cell.sym, c₁.input, fs'⟩ := by
  cases h with
  | @action a l r γ u s ha =>
    rw [map_sym_setRights]
    exact ⟨_, .action ha⟩
  | terminal hx => exact ⟨_, .terminal hx⟩
  | replace hA hnext hroom =>
    rw [List.map_append, map_sym_cells, map_fst_inherit]
    exact ⟨_, .replace hA hnext hroom⟩

/-- When the values are forgotten, a run is a run of the parser that has no values. -/
lemma reaches_erase (h : ReflTransGen (Step T d) c c₁) (fs : List (σ ⊕ τ)) : ∃ fs', ReflTransGen
    (Predictive.Step T.toTable d) ⟨c.stack.map Cell.sym, c.input, fs⟩ ⟨c₁.stack.map Cell.sym,
    c₁.input, fs'⟩ := by
  induction h with
  | refl => exact ⟨fs, .refl⟩
  | tail _ hstep ih =>
    obtain ⟨gs, hgs⟩ := ih
    obtain ⟨gs', hgs'⟩ := hstep.erase gs
    exact ⟨gs', hgs.tail hgs'⟩

/-- The parser is deterministic: a configuration has at most one next one. -/
lemma step_rightUnique : Relator.RightUnique (Step T d) := by
  intro c c₁ c₂ h₁ h₂
  cases h₁ with
  | action ha =>
    cases h₂ with
    | action => rfl
    | terminal hx => exact absurd (ha.symm.trans hx) (by simp)
    | replace hA => exact absurd (ha.symm.trans hA) (by simp)
  | terminal hx =>
    cases h₂ with
    | action ha => exact absurd (ha.symm.trans hx) (by simp)
    | terminal => rfl
    | replace hA => exact absurd (hA.symm.trans hx) (by simp)
  | replace hA hnext =>
    cases h₂ with
    | action ha => exact absurd (ha.symm.trans hA) (by simp)
    | terminal hx => exact absurd (hA.symm.trans hx) (by simp)
    | replace _ hnext' =>
      obtain rfl := Option.some.inj (hnext.symm.trans hnext')
      rfl

/-- A run that comes to the end of the stack has one result. -/
lemma unique_of_reaches {v₁ v₂ : List τ} {s₁ s₂ : S} (h₁ : ReflTransGen (Step T d) c ⟨[], v₁, s₁⟩)
    (h₂ : ReflTransGen (Step T d) c ⟨[], v₂, s₂⟩) : v₁ = v₂ ∧ s₁ = s₂ := by
  have hstop : ∀ {v : List τ} {s : S} {c' : Config σ τ V S}, ReflTransGen (Step T d) ⟨[], v, s⟩ c' →
      c' = ⟨[], v, s⟩ := by
    intro v s c' h
    rcases h.cases_head with heq | ⟨_, hstep, -⟩
    · exact heq.symm
    · cases hstep
  rcases ReflTransGen.total_of_right_unique step_rightUnique h₁ h₂ with h | h
  · cases hstop h
    exact ⟨rfl, rfl⟩
  · cases hstop h
    exact ⟨rfl, rfl⟩

/-! ## Placed actions -/

/-- The symbols are those of right-hand sides in which every action is in its place. -/
inductive Framed (T : Scheme σ τ κ V S) : List σ → Prop
  /-- There is no symbol, so that nothing is needed. -/
  | nil : Framed T []
  /-- The symbols that are left of a right-hand side. -/
  | cons {δ γ : List σ} (hδ : Placed T δ) (hγ : Framed T γ) : Framed T (δ ++ γ)

/-- Below an action there are the symbols that it changes. -/
lemma Framed.arity_le {a : σ} {γ : List σ} (h : Framed T (a :: γ)) (ha : T.kind a = .action) :
    T.arity a ≤ γ.length := by
  generalize hγ : a :: γ = stack at h
  induction h with
  | nil => cases hγ
  | @cons δ stack hδ hstack ih =>
    rcases δ with _ | ⟨x, δ⟩
    · exact ih hγ
    · obtain ⟨rfl, rfl⟩ := List.cons.inj (show a :: γ = x :: (δ ++ stack) from hγ)
      rw [hδ.1 ha, List.length_append]
      omega

/-- What is framed stays framed when the symbol on top is taken off. -/
lemma Framed.tail {a : σ} {γ : List σ} (h : Framed T (a :: γ)) : Framed T γ := by
  generalize hγ : a :: γ = stack at h
  induction h with
  | nil => cases hγ
  | @cons δ stack hδ hstack ih =>
    rcases δ with _ | ⟨x, δ⟩
    · exact ih hγ
    · obtain ⟨rfl, rfl⟩ := List.cons.inj (show a :: γ = x :: (δ ++ stack) from hγ)
      exact .cons hδ.2 hstack

/-- Every move keeps each action in front of the symbols of its own right-hand side. -/
lemma Step.framed (hplaced : ∀ A c δ, T.next A c = some δ → Placed T δ) (h : Step T d c c₁)
    (hc : Framed T (c.stack.map Cell.sym)) : Framed T (c₁.stack.map Cell.sym) := by
  cases h with
  | action ha =>
    rw [map_sym_setRights]
    exact hc.tail
  | terminal hx => exact hc.tail
  | replace hA hnext =>
    rw [List.map_append, map_sym_cells, map_fst_inherit]
    exact .cons (hplaced _ _ _ hnext) hc.tail

/-! ## Evaluation -/

/-- The right-hand sides on the stack, the innermost first: each with the value of its left-hand
side, and with the symbols that are left of it. -/
def frameCells (frames : List (V × List (σ × V))) : List (Cell σ V) :=
  frames.flatMap fun x => cells x.1 x.2

/-- The right-hand sides are evaluated one after another, each with the value of its left-hand
side. -/
inductive EvalsAll (T : Scheme σ τ κ V S) (d : ℕ) : List (V × List (σ × V)) → List τ → List τ → S →
    S → Prop
  /-- No right-hand side is left. -/
  | nil (u : List τ) (s : S) : EvalsAll T d [] u u s s
  /-- One more right-hand side in front of the others. -/
  | cons {l : V} {form : List (σ × V)} {frames : List (V × List (σ × V))} {u m v : List τ}
      {s s₁ s' : S} (h : Evals T (d - (frameCells frames).length) l form u m s s₁)
      (hrest : EvalsAll T d frames m v s₁ s') : EvalsAll T d ((l, form) :: frames) u v s s'

/-- There is room on the stack exactly if there is room in front of the frames below. -/
lemma room_frames {δ : List σ} {frames : List (V × List (σ × V))} {rest : List (σ × V)} :
    Room d δ ((cells l rest ++ frameCells frames).map Cell.sym) ↔
      Room (d - (frameCells frames).length) δ (rest.map Prod.fst) := by
  rw [List.map_append, map_sym_cells, room_append_iff, List.length_map]

/-- What the parser does with right-hand sides on its stack is to evaluate them. -/
lemma evalsAll_of_reaches (hplaced : ∀ A c δ, T.next A c = some δ → Placed T δ)
    (h : ReflTransGen (Step T d) c ⟨[], v, s'⟩) (frames : List (V × List (σ × V)))
    (hframes : ∀ x ∈ frames, Placed T (x.2.map Prod.fst)) (hc : c.stack = frameCells frames) :
    EvalsAll T d frames c.input v c.state s' := by
  induction h using ReflTransGen.head_induction_on generalizing frames with
  | refl =>
    induction frames with
    | nil => exact .nil v s'
    | cons x frames ih =>
      obtain ⟨l, form⟩ := x
      have hnil : cells l form ++ frameCells frames = [] := hc.symm
      obtain ⟨hform, hrest⟩ := List.append_eq_nil_iff.mp hnil
      obtain rfl : form = [] := List.map_eq_nil_iff.mp hform
      exact .cons (.nil v s') (ih (List.forall_mem_cons.mp hframes).2 hrest.symm)
  | @head c c₁ hstep _ ih =>
    induction frames with
    | nil =>
      obtain ⟨stack, u, s⟩ := c
      obtain rfl : stack = [] := hc
      cases hstep
    | cons x frames ihframes =>
      obtain ⟨l, form⟩ := x
      obtain ⟨hform, hframes'⟩ := List.forall_mem_cons.mp hframes
      rcases form with _ | ⟨⟨x, r⟩, rest⟩
      · exact .cons (.nil _ _) (ihframes hframes' hc)
      obtain ⟨stack, u, s⟩ := c
      obtain rfl : stack = ⟨x, l, r⟩ :: (cells l rest ++ frameCells frames) := hc
      cases hstep with
      | action ha =>
        have hact := act_cells (l := l) (hform.1 ha) (frameCells frames) s
        rw [hact] at ih
        have hlen : (T.act x l (rest.map Prod.snd) s).2.length = rest.length := by
          rw [T.length_act, List.length_map]
        have hfst : ((rest.map Prod.fst).zip (T.act x l (rest.map Prod.snd) s).2).map Prod.fst =
            rest.map Prod.fst :=
          List.map_fst_zip (by simp [hlen])
        have hrest :=
          ih ((l, (rest.map Prod.fst).zip (T.act x l (rest.map Prod.snd) s).2) :: frames)
          (List.forall_mem_cons.mpr ⟨by rw [hfst]; exact hform.2, hframes'⟩)
            (setRights_cells hlen _)
        cases hrest with
        | cons h hrest => exact .cons (.action ha h) hrest
      | terminal hx =>
        cases ih ((l, rest) :: frames) (List.forall_mem_cons.mpr ⟨hform.2, hframes'⟩) rfl with
        | cons h hrest => exact .cons (.terminal hx h) hrest
      | @replace _ _ δ _ _ hA hnext hroom =>
        have hcall := ih ((r, inherit δ r) :: (l, rest) :: frames) (List.forall_mem_cons.mpr
          ⟨by
            rw [map_fst_inherit]; exact hplaced _ _ _ hnext, List.forall_mem_cons.mpr
              ⟨hform.2, hframes'⟩⟩) rfl
        cases hcall with
        | cons hδ hrest =>
          cases hrest with
          | cons h hrest =>
            refine .cons (.replace hA hnext (room_frames.mp hroom) ?_ h) hrest
            have hlen :
                (frameCells ((l, rest) :: frames)).length = rest.length +
                (frameCells frames).length := by
              simp [frameCells]
            rw [hlen, Nat.add_comm, ← Nat.sub_sub] at hδ
            exact hδ

/-- The parser evaluates a right-hand side on top of its stack. -/
lemma Evals.reaches {n : ℕ} (hplaced : ∀ A c δ, T.next A c = some δ → Placed T δ)
    (h : Evals T n l form u v s s') (hform : Placed T (form.map Prod.fst)) (hn : n = d - γ.length) :
    ReflTransGen (Step T d) ⟨cells l form ++ γ, u, s⟩ ⟨γ, v, s'⟩ := by
  induction h generalizing γ with
  | nil => exact .refl
  | @action n l r a rest u v s s' ha h ih =>
    have hlen : (T.act a l (rest.map Prod.snd) s).2.length = rest.length := by
      rw [T.length_act, List.length_map]
    have hstep : Step T d ⟨⟨a, l, r⟩ :: (cells l rest ++ γ), u, s⟩ _ := .action ha
    rw [act_cells (hform.1 ha), setRights_cells hlen] at hstep
    refine .head hstep (ih ?_ hn)
    rw [List.map_fst_zip (by simp [hlen])]
    exact hform.2
  | terminal hx h ih => exact .head (.terminal hx) (ih hform.2 hn)
  | @replace n l r A rest δ u m v s s₁ s' hA hnext hroom hcall h ihcall ih =>
    have hroom' : Room d δ ((cells l rest ++ γ).map Cell.sym) := by
      rw [List.map_append, map_sym_cells, room_append_iff, List.length_map, ← hn]
      exact hroom
    have hδ :=
      ihcall (γ := cells l rest ++ γ) (by rw [map_fst_inherit]; exact hplaced _ _ _ hnext) (by
      rw [List.length_append, length_cells, hn, Nat.sub_sub, Nat.add_comm])
    exact .head (.replace hA hnext hroom') (hδ.trans (ih hform.2 hn))

/-- The parser empties a stack with one right-hand side exactly when the evaluation of that
right-hand side comes to the same input and state. -/
theorem reaches_iff_evals (hplaced : ∀ A c δ, T.next A c = some δ → Placed T δ)
    (hform : Placed T (form.map Prod.fst)) :
    ReflTransGen (Step T d) ⟨cells l form, u, s⟩ ⟨[], v, s'⟩ ↔ Evals T d l form u v s s' := by
  constructor
  · intro h
    have hall :=
      evalsAll_of_reaches hplaced h [(l, form)] (List.forall_mem_singleton.mpr hform)
        (by simp [frameCells])
    cases hall with
    | cons h hrest =>
      cases hrest
      exact h
  · intro h
    have hrun := h.reaches (γ := []) hplaced hform rfl
    rwa [List.append_nil] at hrun

end Attributed
