import Cgkits.Parser.LlTables

/-!
# The tables of a generated LL(1) parser (`llcode.c`)

`tables` prints the table that `fill_row` fills, in pairs or as it is, and the right-hand sides of
the productions, back to front.  The driver runs on what the C compiler makes of them.

As long as the entries fit into cells, the driver on the printed tables makes the same rounds as the
driver on the table that `fill_row` fills (`parse_result`), so it runs as `Cgkits.Parser.LlDriver`
says (`tables_parse`).
-/

namespace Parser

open Machine LlTables ContextFree

/-- The options of llama that the tables depend on. -/
structure LlOptions where
  /-- `g_cmdopt.uncompressed`: no row is made of pairs. -/
  uncompressed : Bool
  /-- `g_cmdopt.threshold`, the most pairs of a row. -/
  threshold : ℤ

/-- How `yyparse` ends when it reads no table behind its end. -/
def LlEnd.result : LlEnd → Option LlResult
  | .returns code s =>
    some (.returns code ⟨s.stack, s.lookahead.1, s.rest.map Prod.fst, s.yynerrs, s.trace⟩)
  | .overflow => some .overflow
  | .outside => none

/-- The state of the driver without the texts of the tokens. -/
def LlRun.state (s : LlRun) : LlState :=
  ⟨s.stack, s.lookahead.1, s.rest.map Prod.fst, s.yynerrs, s.trace⟩

namespace Grammar

variable {G : Grammar}

section Tables

variable (w : G.Walk)

/-- `_dtran`, with -1 for the cells that have not been filled. -/
def dtranArray (k : ℕ) : ℤ := (dtran w).cells.getD k (-1)

/-- `make_yy_dtran`: the array `Yyd`, as a C program gets it. -/
def makeYyDtran (opt : LlOptions) : Option (List (Option (List ℤ))) :=
  if opt.uncompressed then
    some ((List.range G.usedNonterms).map fun i =>
      some ((List.range G.rowsize).map fun j => Parser.cell (dtranArray w) G.rowsize i j % 256))
  else (sysPairs (dtranArray w) G.rowsize G.usedNonterms "Yyd" opt.threshold true).table
    Const.toUChar "Yyd"

/-- `make_yy_pushtab`: the array `Yy_pushtab`, with a row for each production. -/
def makeYyPushtab (G : Grammar) (numProductons : ℕ) : List (List ℕ) :=
  (List.range numProductons).map G.yyPushtab

/-- `tables` and `code_header`: what llama prints for the driver. -/
def tables (opt : LlOptions) (numProductons : ℕ) (env : LlEnv) : Option LlTables :=
  (makeYyDtran w opt).map fun yyd =>
    { yyMaxterm := G.currterm
      yyStartState := minNonterm
      uncompressed := opt.uncompressed
      yyd := yyd
      yyPushtab := makeYyPushtab G numProductons
      yySynch := env.yySynchTab }

/-- The entries of the table fit into the cells that llama prints. -/
def CellsFit (opt : LlOptions) : Prop :=
  if opt.uncompressed then
    ∀ i < G.usedNonterms, ∀ j < G.rowsize, Parser.cell (dtranArray w) G.rowsize i j < llamaF
  else PairsFit (dtranArray w) G.usedNonterms G.rowsize opt.threshold

end Tables

/-- The driver finds on the tables what it finds on the table that `fill_row` fills. -/
structure Printed (w : G.Walk) (env : LlEnv) (T : LlTables) : Prop where
  /-- The number of the last terminal is printed. -/
  yyMaxterm : T.yyMaxterm = G.currterm
  /-- The lookups in the printed table are right. -/
  yyNext : ∀ A ∈ G.nonterms, ∀ c ≤ G.currterm, LooksUp (T.yyNext A c) (Grammar.yyNext w A c)
  /-- The right-hand sides are printed, reversed. -/
  yyPushtab : ∀ p ∈ G.prods, T.yyPushtab[p.num]? = some (G.yyPushtab p.num)
  /-- The synchronization tokens. -/
  yySynch : T.yySynch = env.yySynchTab

section Print

variable {w : G.Walk} {opt : LlOptions} {n : ℕ} {env : LlEnv} {T : LlTables}

/-- The row of a nonterminal is a row of the table. -/
lemma sub_lt_usedNonterms {A : ℕ} (hA : A ∈ G.nonterms) : A - minNonterm < G.usedNonterms := by
  have h := mem_nonterms.mp hA
  unfold usedNonterms
  omega

/-- A column of the table is the end of the input or a terminal. -/
lemma lt_rowsize_iff {c : ℕ} : c < G.rowsize ↔ c ≤ G.currterm := by
  have hmin : minTerm = 1 := rfl
  unfold rowsize usedTerms
  omega

/-- A cell of the array is what the driver looks up in the table. -/
lemma cell_dtranArray (i j : ℕ) :
    Parser.cell (dtranArray w) G.rowsize i j = Grammar.yyNext w (i + minNonterm) j := by
  unfold Grammar.yyNext Grammar.cell
  rw [Nat.add_sub_cancel]
  rfl

/-- A cell holds -1 or the number of a production. -/
lemma dtranArray_cases (hc : (dtran w).conflicts = []) {i j : ℕ} (hi : i < G.usedNonterms)
    (hj : j < G.rowsize) : Parser.cell (dtranArray w) G.rowsize i j = -1 ∨
      ∃ p ∈ G.prods, Parser.cell (dtranArray w) G.rowsize i j = p.num := by
  have hA : i + minNonterm ∈ G.nonterms := by
    rw [mem_nonterms]
    unfold usedNonterms at hi
    have := G.goalSymbol_mem
    omega
  rw [cell_dtranArray]
  by_cases hne : Grammar.yyNext w (i + minNonterm) j = -1
  · exact Or.inl hne
  · obtain ⟨p, hp, -, he⟩ := exists_prod_of_yyNext hc hA (lt_rowsize_iff.mp hj) hne
    exact Or.inr ⟨p, hp, he⟩

/-- A cell of the table is -1 or the number of a production. -/
lemma neg_one_le_dtranArray (hc : (dtran w).conflicts = []) {i j : ℕ}
    (hi : i < G.usedNonterms) (hj : j < G.rowsize) :
    -1 ≤ Parser.cell (dtranArray w) G.rowsize i j := by
  rcases dtranArray_cases hc hi hj with h | ⟨p, -, h⟩
  · exact h.ge
  · omega

/-- The look-up in a table that is not compressed returns the entry modulo 256. -/
lemma looksUp_mod {v : ℤ} (hge : -1 ≤ v) (hlt : v < llamaF) : LooksUp (some (v % 256)) v := by
  have hmax : llamaF = 255 := rfl
  refine ⟨v % 256, rfl, fun hne => ?_, ?_⟩ <;> omega

/-- The look-ups of the driver in the printed tables return the entries of the array. -/
lemma looksUp_tables (hc : (dtran w).conflicts = []) (hfit : CellsFit w opt)
    (hT : tables w opt n env = some T) {A c : ℕ} (hA : A ∈ G.nonterms) (hcol : c ≤ G.currterm) :
    LooksUp (T.yyNext A c) (Grammar.yyNext w A c) := by
  have hi := sub_lt_usedNonterms hA
  have hj := lt_rowsize_iff.mpr hcol
  have hcell : Parser.cell (dtranArray w) G.rowsize (A - minNonterm) c = Grammar.yyNext w A c := by
    rw [cell_dtranArray, Nat.sub_add_cancel (mem_nonterms.mp hA).1]
  obtain ⟨yyd, hyyd, rfl⟩ := Option.map_eq_some_iff.mp hT
  rw [← hcell]
  unfold LlTables.yyNext
  unfold makeYyDtran at hyyd
  unfold CellsFit at hfit
  by_cases hopt : opt.uncompressed = true
  · rw [if_pos hopt] at hyyd hfit
    obtain rfl := Option.some.inj hyyd
    dsimp only
    rw [if_pos hopt, List.getElem?_map, List.getElem?_range hi]
    change LooksUp (((List.range G.rowsize).map fun j => _)[c]?) _
    rw [List.getElem?_map, List.getElem?_range hj]
    exact looksUp_mod (neg_one_le_dtranArray hc hi hj) (hfit _ hi c hj)
  · rw [if_neg hopt] at hyyd hfit
    have hpos : 0 < G.usedNonterms := Nat.succ_pos _
    rw [table_sysPairs hpos hfit.last] at hyyd
    obtain rfl := Option.some.inj hyyd
    dsimp only
    rw [if_neg hopt]
    unfold sysPnext
    rw [List.getElem?_map, List.getElem?_range hi]
    exact (looksUp_row_iff (fun j hj => neg_one_le_dtranArray hc hi hj) (hfit.lt _ hi)).mpr
      (hfit.pairs _ hi) c hj

/-- The printed tables are those of the table that `fill_row` fills. -/
lemma printed_tables (hc : (dtran w).conflicts = []) (hfit : CellsFit w opt)
    (hn : ∀ p ∈ G.prods, p.num < n) (hT : tables w opt n env = some T) : Printed w env T := by
  have hnext := fun A hA c hcol => looksUp_tables hc hfit hT (A := A) (c := c) hA hcol
  obtain ⟨yyd, -, rfl⟩ := Option.map_eq_some_iff.mp hT
  refine ⟨rfl, hnext, fun p hp => ?_, rfl⟩
  change ((List.range n).map G.yyPushtab)[p.num]? = _
  rw [List.getElem?_map, List.getElem?_range (hn p hp)]
  rfl

/-- There are printed tables when the entries fit into the cells. -/
lemma exists_tables (hfit : CellsFit w opt) (n : ℕ) (env : LlEnv) :
    ∃ T, tables w opt n env = some T := by
  unfold tables makeYyDtran
  unfold CellsFit at hfit
  by_cases hopt : opt.uncompressed = true
  · rw [if_pos hopt]
    exact ⟨_, rfl⟩
  · rw [if_neg hopt] at hfit ⊢
    have hpos : 0 < G.usedNonterms := Nat.succ_pos _
    rw [table_sysPairs hpos hfit.last]
    exact ⟨_, rfl⟩

end Print

/-! ## Rounds -/

section Rounds

variable {w : G.Walk} {env : LlEnv} {T : LlTables} {s s' : LlRun}

variable (G) in
/-- The stack consists of symbols of the table, and the tokens are its terminals. -/
structure Known (s : LlRun) : Prop where
  /-- The symbols on the stack are symbols of the grammar. -/
  stack : ∀ x ∈ s.stack, G.IsSymbol x
  /-- The lookahead token is a terminal or the end. -/
  lookahead : s.lookahead.1 ≤ G.currterm
  /-- The tokens that have not been read. -/
  rest : ∀ t ∈ s.rest, t.1 ≤ G.currterm

/-- The next token is that of the input without its texts. -/
lemma yyNextText_map (l : List LlToken) :
    yyNextToken (l.map Prod.fst) = ((yyNextText l).1.1, (yyNextText l).2.map Prod.fst) := by
  cases l <;> rfl

/-- The input up to a token is the same without the texts. -/
lemma skipText_map (tok : ℕ) (t : LlToken) (l : List LlToken) :
    skipTo tok t.1 (l.map Prod.fst) =
    ((skipText tok t l).1.1, (skipText tok t l).2.map Prod.fst) := by
  induction l generalizing t with
  | nil =>
    rw [List.map_nil, skipTo, skipText]
    split <;> rfl
  | cons u l ih =>
    rw [List.map_cons, skipTo, skipText]
    split
    · exact ih u
    · rfl

/-- The recovery does the same without the texts. -/
lemma yySynchText_state (hsynch : T.yySynch = env.yySynchTab) (s : LlRun) :
    (T.yySynchText env s).state = yySynch env s.state := by
  have hstack : s.state.stack = s.stack := rfl
  have herrs : s.state.yynerrs = s.yynerrs := rfl
  unfold LlTables.yySynchText yySynch
  by_cases hmax : s.yynerrs + 1 > env.yymaxerr
  · simp only [herrs, hmax, if_true]
    rfl
  · rcases hdrop : s.stack.dropWhile fun x => !yyInSynch x env.yySynchTab with _ | ⟨tok, stack⟩
    · simp only [herrs, hmax, if_false, hsynch, hstack, hdrop]
      rfl
    · have hlook : s.state.lookahead = s.lookahead.1 := rfl
      have hrest : s.state.rest = s.rest.map Prod.fst := rfl
      simp only [herrs, hmax, if_false, hsynch, hstack, hdrop, hlook, hrest, skipText_map]
      rfl

/-- An error does the same without the texts. -/
lemma error_state (hsynch : T.yySynch = env.yySynchTab) (s : LlRun) :
    (T.error env s).map LlRun.state LlEnd.result = (llError env s.state).map id some := by
  unfold LlTables.error llError
  have hstate := yySynchText_state hsynch s
  have hlook : (yySynch env s.state).lookahead = (T.yySynchText env s).lookahead.1 := by
    rw [← hstate]
    rfl
  dsimp only
  rw [hlook]
  split
  · rw [Sum.map_inr, Sum.map_inr, ← hstate]
    rfl
  · rw [Sum.map_inl, Sum.map_inl, ← hstate]
    rfl

/-- A round of the driver on the printed tables is a round of the driver on the table that
`fill_row` fills. -/
lemma step_state (hT : Printed w env T) (hc : (dtran w).conflicts = []) (hs : G.Known s) :
    (T.step env s).map LlRun.state LlEnd.result = (llStep w env s.state).map id some := by
  have hstack : s.state.stack = s.stack := rfl
  unfold LlTables.step llStep
  rw [hstack]
  rcases hcons : s.stack with _ | ⟨tos, stack⟩
  · rfl
  have hsymbol := hs.stack tos (hcons ▸ List.mem_cons_self)
  dsimp only
  by_cases hact : IsAct tos
  · rw [if_pos hact, if_pos hact]
    have htrace : s.state.trace = s.trace := rfl
    rw [htrace]
    split <;> rfl
  rw [if_neg hact, if_neg hact, hT.yyMaxterm]
  by_cases hterm : minTerm ≤ tos ∧ tos ≤ G.currterm
  · rw [if_pos hterm, if_pos hterm]
    have hlook : s.state.lookahead = s.lookahead.1 := rfl
    rw [hlook]
    split
    · exact error_state hT.yySynch s
    · have hrest : s.state.rest = s.rest.map Prod.fst := rfl
      rw [hrest, yyNextText_map]
      rfl
  rw [if_neg hterm, if_neg hterm]
  have hA := mem_nonterms_of_isSymbol hsymbol hact hterm
  obtain ⟨v, hv, heq, hfail⟩ := hT.yyNext tos hA _ hs.lookahead
  have hlook : s.state.lookahead = s.lookahead.1 := rfl
  rw [hlook, hv]
  dsimp only
  by_cases hne : Grammar.yyNext w tos s.lookahead.1 = -1
  · rw [if_pos (hfail.mpr hne), if_pos hne]
    exact error_state hT.yySynch s
  · obtain ⟨p, hp, -, hnum⟩ := exists_prod_of_yyNext hc hA hs.lookahead hne
    rw [if_neg (fun h => hne (hfail.mp h)), if_neg hne, heq hne, hnum, Int.toNat_natCast,
      hT.yyPushtab p hp]
    dsimp only
    cases yyPushAll env.yymaxdepth (G.yyPushtab p.num) stack <;> rfl

/-- The next token and those behind it are terminals of the table, or the end. -/
lemma yyNextText_le {l : List LlToken} (hl : ∀ t ∈ l, t.1 ≤ G.currterm) :
    (yyNextText l).1.1 ≤ G.currterm ∧ ∀ t ∈ (yyNextText l).2, t.1 ≤ G.currterm := by
  rcases l with _ | ⟨t, l⟩
  · exact ⟨Nat.zero_le _, hl⟩
  · exact List.forall_mem_cons.mp hl

/-- A token that has been found and those behind it are terminals. -/
lemma skipText_le {tok : ℕ} {t : LlToken} {l : List LlToken} (ht : t.1 ≤ G.currterm)
    (hl : ∀ x ∈ l, x.1 ≤ G.currterm) : (skipText tok t l).1.1 ≤ G.currterm ∧
    ∀ x ∈ (skipText tok t l).2, x.1 ≤ G.currterm := by
  induction l generalizing t with
  | nil =>
    rw [skipText]
    split
    · exact ⟨Nat.zero_le _, hl⟩
    · exact ⟨ht, hl⟩
  | cons u l ih =>
    rw [skipText]
    split
    · exact ih (hl u List.mem_cons_self) fun t ht => hl t (List.mem_cons_of_mem u ht)
    · exact ⟨ht, hl⟩

/-- The recovery leaves terminals of the table to read. -/
lemma Known.error (hs : G.Known s) (h : T.error env s = .inl s') : G.Known s' := by
  have hsynch : G.Known (T.yySynchText env s) := by
    unfold LlTables.yySynchText
    dsimp only
    split
    · exact ⟨hs.stack, Nat.zero_le _, hs.rest⟩
    · split
      · exact ⟨by simp, Nat.zero_le _, hs.rest⟩
      · rename_i tok stack hdrop
        obtain ⟨hlook, hrest⟩ : (skipText tok s.lookahead s.rest).1.1 ≤ G.currterm ∧
            ∀ x ∈ (skipText tok s.lookahead s.rest).2, x.1 ≤ G.currterm :=
              skipText_le hs.lookahead hs.rest
        refine ⟨fun x hx => hs.stack x ?_, hlook, hrest⟩
        have hx' : x ∈ s.stack.dropWhile fun x => !yyInSynch x T.yySynch := hdrop ▸ hx
        exact (List.dropWhile_sublist _).subset hx'
  unfold LlTables.error at h
  dsimp only at h
  split at h
  · cases h
  · cases h
    exact hsynch

/-- A round leaves symbols of the table on the stack and terminals to read. -/
lemma Known.step (hT : Printed w env T) (hc : (dtran w).conflicts = []) (hs : G.Known s)
    (h : T.step env s = .inl s') : G.Known s' := by
  unfold LlTables.step at h
  split at h
  · cases h
  rename_i tos stack hcons
  have hsymbol := hs.stack tos (hcons ▸ List.mem_cons_self)
  have hbelow : ∀ x ∈ stack, G.IsSymbol x :=
    fun x hx => hs.stack x (hcons ▸ List.mem_cons_of_mem tos hx)
  split at h
  · dsimp only at h
    split at h
    · cases h
    · cases h
      exact ⟨hbelow, hs.lookahead, hs.rest⟩
  rename_i hact
  split at h
  · split at h
    · exact hs.error h
    · cases h
      obtain ⟨hlook, hrest⟩ := yyNextText_le hs.rest
      exact ⟨hbelow, hlook, hrest⟩
  rename_i hterm
  rw [hT.yyMaxterm] at hterm
  have hA := mem_nonterms_of_isSymbol hsymbol hact hterm
  obtain ⟨v, hv, heq, hfail⟩ := hT.yyNext tos hA _ hs.lookahead
  rw [hv] at h
  dsimp only at h
  split at h
  · exact hs.error h
  rename_i hne
  have hne' : Grammar.yyNext w tos s.lookahead.1 ≠ -1 := fun he => hne (hfail.mpr he)
  obtain ⟨p, hp, -, hnum⟩ := exists_prod_of_yyNext hc hA hs.lookahead hne'
  rw [heq hne', hnum, Int.toNat_natCast, hT.yyPushtab p hp] at h
  dsimp only at h
  split at h
  · cases h
  rename_i stack' hpush
  cases h
  obtain rfl := yyPushAll_yyPushtab hp hpush
  refine ⟨fun x hx => ?_, hs.lookahead, hs.rest⟩
  rcases List.mem_append.mp hx with hx | hx
  · exact G.rhs_mem p hp x hx
  · exact hbelow x hx

/-- The driver on the printed tables ends as the driver on the table that `fill_row` fills. -/
theorem parse_result (hT : Printed w env T) (hc : (dtran w).conflicts = [])
    (hstart : T.yyStartState = G.goalSymbol) {tokens : List LlToken} {input : List G.Token}
    (htokens : tokens.map Prod.fst = input.map Subtype.val) (n : ℕ) :
    (T.parse env tokens n).map LlEnd.result = (llParse w env input n).map some := by
  have hle : ∀ t ∈ tokens, t.1 ≤ G.currterm := by
    intro t ht
    have hmem : t.1 ∈ input.map Subtype.val := htokens ▸ List.mem_map_of_mem ht
    obtain ⟨x, -, hx⟩ := List.mem_map.mp hmem
    rw [← hx]
    exact x.2.2
  have hknown : G.Known (T.init tokens) := by
    obtain ⟨hlook, hrest⟩ := yyNextText_le hle
    refine ⟨fun x hx => ?_, hlook, hrest⟩
    obtain rfl : x = T.yyStartState := List.mem_singleton.mp hx
    rw [hstart]
    exact Or.inr (Or.inl G.goalSymbol_mem)
  have hinit : (T.init tokens).state = llInit input := by
    unfold LlTables.init llInit LlRun.state
    rw [← htokens, yyNextText_map, hstart]
  unfold LlTables.parse llParse
  split
  · rfl
  · rw [← hinit]
    exact run_project LlRun.state LlEnd.result some G.Known (fun s s' hs h => hs.step hT hc h)
      (fun s hs => step_state hT hc hs) hknown n

end Rounds

/-! ## The printed parser -/

section Correct

variable {w : G.Walk} {env : LlEnv} {opt : LlOptions} {n : ℕ}

/-- The tables that are printed for a grammar without conflicts run as the table that `fill_row`
fills, compressed or not, as long as the entries fit into cells and the first nonterminal is the
goal symbol. -/
theorem tables_parse (G : Grammar) (w : G.Walk) (opt : LlOptions) (env : LlEnv) (numProductons : ℕ)
    (hstart : G.goalSymbol = minNonterm) (hn : ∀ p ∈ G.prods, p.num < numProductons)
    (hc : (dtran w).conflicts = []) (hfit : CellsFit w opt) :
    ∃ T, tables w opt numProductons env = some T ∧
      ∀ (tokens : List LlToken) (input : List G.Token), tokens.map Prod.fst =
        input.map Subtype.val →
        ∀ n, (T.parse env tokens n).map LlEnd.result = (llParse w env input n).map some := by
  obtain ⟨T, hT⟩ := exists_tables hfit numProductons env
  refine ⟨T, hT, fun tokens input htokens n => parse_result (printed_tables hc hfit hn hT) hc ?_
    htokens n⟩
  obtain ⟨yyd, -, rfl⟩ := Option.map_eq_some_iff.mp hT
  exact hstart.symm

/-- The table for `s : {0} X ;` has one pair, which fits into its cells. -/
lemma actionGrammar_cellsFit : CellsFit actionWalk ⟨false, 4⟩ := by
  have hfit : PairsFit (dtranArray actionWalk) 1 2 4 :=
    ⟨by decide +kernel, by decide +kernel, fun i hi _ _ => Or.inl ⟨?_, fun j hj hbig => by omega⟩⟩
  · exact hfit
  · obtain rfl : i = 0 := by omega
    decide +kernel

/-- The tables for `s : {0} X ;`, compressed to pairs, parse every input as the grammar says. -/
theorem tables_parse_actionGrammar :
    ∃ T, tables actionWalk ⟨false, 4⟩ 1 ⟨128, 25, ∅, fun _ _ => 0⟩ = some T ∧
      ∀ (tokens : List LlToken) (input : List actionGrammar.Token), tokens.map Prod.fst =
        input.map Subtype.val →
        ∀ n, (T.parse ⟨128, 25, ∅, fun _ _ => 0⟩ tokens n).map LlEnd.result =
          (llParse actionWalk ⟨128, 25, ∅, fun _ _ => 0⟩ input n).map some :=
  tables_parse actionGrammar actionWalk ⟨false, 4⟩ ⟨128, 25, ∅, fun _ _ => 0⟩ 1 rfl (by decide)
    actionGrammar_conflicts actionGrammar_cellsFit

end Correct

end Grammar

end Parser
