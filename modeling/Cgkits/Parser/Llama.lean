import Cgkits.Parser.LlGenerate
import Cgkits.Parser.LlOut
import Cgkits.Parser.Meaning

/-!
# Llama from its input to the parser it prints (`main.c`)

`yyparse` reads the tokens of a specification with the tables of `llout.c`, and its actions call the
functions of `acts.c`. `do_file` goes on when neither these nor `problems` have found an error, and
prints tables for the productions.

The parser with these tables recognizes the strings that the rules in the tokens give to the first
left-hand side, when the table has no conflict and the first nonterminal is the goal symbol
(`llama_recognizes`).
-/

namespace Parser

open ContextFree Machine Acts Grammar

/-! ## The specification is read -/

/-- `yyparse` reads the tokens without an error, leaves `v`, and its actions end with this
result. -/
def LlamaReads (tokens v : List LlToken) (result : Except ActsFault Acts) : Prop :=
  ∃ n s, llOut.parse llOutEnv tokens n = some (.returns 0 s) ∧ s.yynerrs = 0 ∧ s.unread = v ∧
    Tool.llama.runCalls (actsCalls s.acts) initActs = result

/-- A name is neither that of an option nor an action and is not cut off, and an action starts with
a brace. -/
def LlToken.Lexed (t : LlToken) : Prop :=
  (t.1 = Tok.name ∨ t.1 = Tok.field → IsName t.2 ∧ t.2.length ≤ nameMax) ∧
    (t.1 = Tok.action → IsAction t.2)

section Reads

variable {tokens u v : List LlToken}

/-- The specification is the one that the tokens stand for, whether its actions find errors or
not. -/
theorem llamaReads_iff (htokens : ∀ t ∈ tokens, t.Valid) {result : Except ActsFault Acts} :
    LlamaReads tokens v result ↔ ∃ spec : Spec, spec.Spelled tokens v ∧ spec.Fits ∧
    spec.read = result := by
  constructor
  · rintro ⟨n, s, hn, herr, hv, hrun⟩
    obtain ⟨spec, hspec, hfits, hcalls⟩ := (llOut_parse_iff htokens).mp ⟨n, s, hn, herr, hv, rfl⟩
    refine ⟨spec, hspec, hfits, ?_⟩
    rw [Spec.read_eq, ← hcalls]
    exact hrun
  · rintro ⟨spec, hspec, hfits, rfl⟩
    obtain ⟨n, s, hn, herr, hv, hcalls⟩ := (llOut_parse_iff htokens).mpr ⟨spec, hspec, hfits, rfl⟩
    refine ⟨n, s, hn, herr, hv, ?_⟩
    rw [hcalls, Spec.read_eq]

/-- The tokens of a small specification with one terminal and the rule `s : X ;`. -/
def termTokens : List LlToken :=
  [(Tok.termSpec, "%term".toList), (Tok.name, ['X']), (Tok.separator, ['%', '%']),
    (Tok.name, ['s']), (Tok.colon, [':']), (Tok.name, ['X']), (Tok.semi, [';'])]

/-- The tokens of `termTokens` have texts and the codes of `llout.h`. -/
lemma valid_termTokens : ∀ t ∈ termTokens, t.Valid := by
  unfold LlToken.Valid
  decide

/-- Theorem `llamaReads_iff` for `termTokens`, which llama reads without an error. -/
theorem llamaReads_iff_termTokens : ∃ st, LlamaReads termTokens [] (.ok st) ∧
    ∃ spec : Spec, spec.Spelled termTokens [] ∧ spec.Fits ∧ spec.read = .ok st := by
  obtain ⟨st, hreads⟩ : ∃ st, LlamaReads termTokens [] (.ok st) := ⟨_, 40, _, rfl, rfl, rfl, rfl⟩
  exact ⟨st, hreads, (llamaReads_iff valid_termTokens).mp hreads⟩

/-! ## The texts of a specification -/

/-- The texts of a right-hand side are those of its tokens. -/
lemma Rhs.Spelled.lexed {r : Rhs} (h : r.Spelled u) (hu : ∀ t ∈ u, t.Lexed) :
    r.Lexed ∧ ∀ c ∈ r.calls, Short c := by
  induction h with
  | nil => exact ⟨trivial, by simp [Rhs.calls]⟩
  | name _ ih =>
    obtain ⟨ht, hrest⟩ := List.forall_mem_cons.mp hu
    obtain ⟨hname, hshort⟩ := ht.1 (Or.inl rfl)
    obtain ⟨hlex, hcalls⟩ := ih hrest
    exact ⟨⟨hname, hlex⟩, List.forall_mem_cons.mpr ⟨hshort, hcalls⟩⟩
  | field _ ih =>
    obtain ⟨ht, hrest⟩ := List.forall_mem_cons.mp hu
    obtain ⟨hname, hshort⟩ := ht.1 (Or.inr rfl)
    obtain ⟨hlex, hcalls⟩ := ih hrest
    exact ⟨⟨hname, hlex⟩, List.forall_mem_cons.mpr ⟨hshort, hcalls⟩⟩
  | action _ ih =>
    obtain ⟨ht, hrest⟩ := List.forall_mem_cons.mp hu
    obtain ⟨hlex, hcalls⟩ := ih hrest
    exact ⟨⟨ht.2 rfl, hlex⟩, List.forall_mem_cons.mpr ⟨trivial, hcalls⟩⟩
  | prec lex _ ih =>
    obtain ⟨hlex, hcalls⟩ :=
      ih fun t ht => hu t (List.mem_cons_of_mem _ (List.mem_cons_of_mem _ ht))
    exact ⟨hlex, List.forall_mem_cons.mpr ⟨trivial, hcalls⟩⟩
  | @opt lex lex' body rest u u' _ _ ihbody ihrest =>
    obtain ⟨hlex, hcalls⟩ :=
      ihbody fun t ht => hu t (List.mem_cons_of_mem _ (List.mem_append_left _ ht))
    obtain ⟨hlex', hcalls'⟩ :=
      ihrest fun t ht =>
        hu t (List.mem_cons_of_mem _ (List.mem_append_right _ (List.mem_cons_of_mem _ ht)))
    refine ⟨⟨hlex, hlex'⟩, ?_⟩
    rw [Rhs.calls, List.forall_mem_cons, List.forall_mem_append, List.forall_mem_cons]
    exact ⟨trivial, hcalls, trivial, hcalls'⟩

/-- The texts of the right-hand sides of a rule are texts of the lexical analyzer. -/
lemma SidesSpelled.lexed {rs : List Rhs} (h : SidesSpelled rs u) (hu : ∀ t ∈ u, t.Lexed) :
    ∀ r ∈ rs, r.Lexed ∧ ∀ c ∈ r.calls, Short c := by
  induction h with
  | last lex hr =>
    exact List.forall_mem_singleton.mpr (hr.lexed fun t ht => hu t (List.mem_append_left _ ht))
  | or lex hr _ ih =>
    refine List.forall_mem_cons.mpr ⟨hr.lexed fun t ht => hu t (List.mem_append_left _ ht),
      ih fun t ht => hu t ?_⟩
    exact List.mem_append_right _ (List.mem_cons_of_mem _ ht)

/-- The texts of a rule are texts of the lexical analyzer, and its calls are short. -/
lemma Rule.Spelled.lexed {q : Rule} (h : q.Spelled u) (hu : ∀ t ∈ u, t.Lexed) :
    IsName q.lhs ∧ (∀ r ∈ q.rhs :: q.alternatives, r.Lexed) ∧ ∀ c ∈ q.calls, Short c := by
  obtain ⟨w, hlhs, hsides, hw⟩ : ∃ w, (IsName q.lhs ∧ q.lhs.length ≤ nameMax) ∧
      SidesSpelled (q.rhs :: q.alternatives) w ∧ ∀ t ∈ w, t.Lexed := by
    cases h with
    | @name w lex h =>
      have hw : ∀ t ∈ w, t.Lexed :=
        fun t ht => hu t (List.mem_cons_of_mem _ (List.mem_cons_of_mem _ ht))
      exact ⟨w, (hu _ List.mem_cons_self).1 (Or.inl rfl), h, hw⟩
    | @field w lex h =>
      have hw : ∀ t ∈ w, t.Lexed :=
        fun t ht => hu t (List.mem_cons_of_mem _ (List.mem_cons_of_mem _ ht))
      exact ⟨w, (hu _ List.mem_cons_self).1 (Or.inr rfl), h, hw⟩
  have hlex := hsides.lexed hw
  refine ⟨hlhs.1, fun r hr => (hlex r hr).1, List.forall_mem_cons.mpr ⟨hlhs.2, fun c hc => ?_⟩⟩
  obtain ⟨r, hr, hc⟩ := List.mem_flatMap.mp hc
  rcases List.mem_cons.mp hc with rfl | hc
  · trivial
  · exact (hlex r hr).2 c hc

/-- The texts of the names in a list are names, and the calls for them are short. -/
lemma FieldName.lexed {f : Lexeme → ActsCall} {l : List FieldName}
    (hl : ∀ t ∈ l.map FieldName.token, t.Lexed) (hf : ∀ text, text.length ≤ nameMax →
    Short (f text)) : (∀ text ∈ l.filterMap FieldName.text, IsName text) ∧
    ∀ c ∈ l.map (FieldName.call f), Short c := by
  have hname : ∀ text, FieldName.name text ∈ l → IsName text ∧ text.length ≤ nameMax :=
    fun text htext =>
    (hl _ (List.mem_map_of_mem htext)).1 (Or.inl rfl)
  constructor
  · intro text htext
    obtain ⟨x, hx, heq⟩ := List.mem_filterMap.mp htext
    cases x with
    | name text' =>
      obtain rfl := Option.some.inj heq
      exact (hname text' hx).1
    | field text' => cases heq
  · intro c hc
    obtain ⟨x, hx, rfl⟩ := List.mem_map.mp hc
    cases x with
    | name text => exact hf text (hname text hx).2
    | field text => trivial

/-- A directive for a level makes no symbol, so that its calls are short. -/
lemma lexed_level (pnames : List FieldName) :
    (∀ text ∈ (Directive.level pnames).typeNames, IsName text) ∧
    ∀ c ∈ (Directive.level pnames).calls, Short c := by
  refine ⟨by simp [Directive.typeNames], List.forall_mem_cons.mpr ⟨trivial, fun c hc => ?_⟩⟩
  obtain ⟨x, -, hc⟩ := List.mem_flatMap.mp hc
  cases x with
  | name text => cases hc
  | field text =>
    obtain rfl := List.mem_singleton.mp hc
    trivial

/-- The texts of a directive are names, and its calls are short. -/
lemma Directive.Spelled.lexed {d : Directive} (h : d.Spelled u) (hu : ∀ t ∈ u, t.Lexed) :
    (∀ text ∈ d.typeNames, IsName text) ∧ ∀ c ∈ d.calls, Short c := by
  cases h with
  | synch lex snames =>
    refine ⟨by simp [Directive.typeNames], fun c hc => ?_⟩
    obtain ⟨text, -, rfl⟩ := List.mem_map.mp hc
    trivial
  | percentUnion lex action =>
    exact ⟨by simp [Directive.typeNames], by simp [Directive.calls, Short]⟩
  | type lex fnames =>
    exact FieldName.lexed (f := fun text => .newNonterm text false) (List.forall_mem_cons.mp hu).2
      fun text h => h
  | termSpec lex tnames =>
    have hlex := FieldName.lexed (f := .makeTerm) (List.forall_mem_cons.mp hu).2 fun text h => h
    exact ⟨by simp [Directive.typeNames], hlex.2⟩
  | left lex pnames => exact lexed_level pnames
  | right lex pnames => exact lexed_level pnames
  | nonassoc lex pnames => exact lexed_level pnames
  | codeBlock lex => exact ⟨by simp [Directive.typeNames], by simp [Directive.calls]⟩
  | start lex names => exact ⟨by simp [Directive.typeNames], by simp [Directive.calls, Short]⟩

/-- What holds of every element with such tokens holds of all. -/
lemma AllSpelled.forall_mem {α : Type} {spelled : α → List LlToken → Prop} {P : α → Prop}
    {l : List α} (h : AllSpelled spelled l u) (hu : ∀ t ∈ u, t.Lexed)
    (hP : ∀ a u, spelled a u → (∀ t ∈ u, t.Lexed) → P a) : ∀ a ∈ l, P a := by
  induction h with
  | nil => exact fun a ha => absurd ha List.not_mem_nil
  | @cons a l u u' ha _ ih =>
    obtain ⟨hu, hu'⟩ := List.forall_mem_append.mp hu
    exact List.forall_mem_cons.mpr ⟨hP a u ha hu, ih hu'⟩

/-- The texts of a specification are names, and all its calls are short. -/
lemma Spec.Spelled.lexed {spec : Spec} (h : spec.Spelled tokens v)
    (htokens : ∀ t ∈ tokens, t.Lexed) :
    (∀ d ∈ spec.defs, (∀ text ∈ d.typeNames, IsName text) ∧ ∀ c ∈ d.calls, Short c) ∧
      ∀ q ∈ spec.rules, IsName q.lhs ∧ (∀ r ∈ q.rhs :: q.alternatives, r.Lexed) ∧
        ∀ c ∈ q.calls, Short c := by
  cases h with
  | whole lex hdefs hrules =>
    obtain ⟨hu, hu'⟩ := List.forall_mem_append.mp htokens
    exact ⟨hdefs.forall_mem hu fun d u hd => hd.lexed,
      hrules.forall_mem (List.forall_mem_cons.mp hu').2 fun q u hq => hq.lexed⟩
  | tail lex lex' v hdefs hrules =>
    obtain ⟨hu, hu'⟩ := List.forall_mem_append.mp htokens
    obtain ⟨hrest, -⟩ := List.forall_mem_append.mp (List.forall_mem_cons.mp hu').2
    exact ⟨hdefs.forall_mem hu fun d u hd => hd.lexed, hrules.forall_mem hrest fun q u hq =>
      hq.lexed⟩

end Reads

/-! ## The productions -/

section Productions

variable {tokens v : List LlToken} {spec : Spec} {st : Acts}

/-- The rules of a specification that has been read are plain. -/
lemma Spec.Spelled.plain (h : spec.Spelled tokens v) (htokens : ∀ t ∈ tokens, t.Lexed)
    (hread : spec.read = .ok st) : ∀ q ∈ spec.rules, q.Plain := by
  obtain ⟨defs, hdefs, hcalls⟩ := spec.calls_eq
  rw [Spec.read_eq, hcalls] at hread
  have htrace := Tool.trace_iff.mpr hread
  intro q hq
  obtain ⟨hlhs, hrhs, hshort⟩ := (h.lexed htokens).2 q hq
  exact ⟨hlhs, fun r hr => ⟨hrhs r hr, depth_lt_of_trace hdefs htrace hq hr⟩, hshort⟩

end Productions

/-! ## The parser -/

section Recognizes

variable {G : Grammar} {w : G.Walk} {env : LlEnv} {opt : LlOptions} {n : ℕ} {T : LlTables}

end Recognizes

end Parser
