import Cgkits.Lib.Links
import Mathlib.Data.List.Perm.Subperm
import Mathlib.Data.Int.Notation
import Mathlib.Tactic.Linarith

/-!
# The hash table (`hash.c`)

A table is an array of chains of symbols; each symbol has a bucket header with a `next` pointer and
the address of the pointer that points at it.  A symbol is named by its address, and `key` is what
its name field holds.  Symbols with equal keys may be in the table at the same time: the last one
that was added is found.

`HashTab.Live` says that the chains hold the live symbols, the last one that was added first.
`hash_table` says it of every sequence of calls.  `walkTab` is the walk of `hash_print_tab`, whose
print function may take symbols out of the table while it runs: `walkTab_spec` says which symbols it
comes to.
-/

namespace Support

open Links

/-- Why a function does not return: it was cut off, it has written outside an array, or the program
has ended. -/
inductive Halt (ε : Type) where
  /-- The model gives up, as its fuel has run out. -/
  | cutOff
  /-- A write outside an array. -/
  | overrun
  /-- The program has ended with a fault. -/
  | stopped (e : ε)
deriving DecidableEq

/-- `HASH_TAB_S`, with the headers of the buckets: `cell (.head i)` is `table[i]`, `cell (.next n)`
and `prev n` are the fields of the header of `n`. -/
structure HashTab (α K : Type) extends Mem ℕ α where
  /-- The number of chains of the table. -/
  maxSize : ℕ
  /-- The number of symbols in the table. -/
  currNum : ℤ
  /-- The hash function of the keys. -/
  fpHash : K → ℕ
  /-- The comparison of the keys. -/
  fpCmp : K → K → ℤ

section Functions

variable {α K : Type} [DecidableEq α] (key : α → K)

/-- `hash_make_tab`, with 1024 chains unless another number is given. -/
def hashMakeTab (maxSym : ℕ) (fpHash : K → ℕ) (fpCmp : K → K → ℤ) : HashTab α K :=
  ⟨.empty, if maxSym = 0 then 1024 else maxSym, 0, fpHash, fpCmp⟩

/-- `hash_add_sym`: put the symbol in front of the chain of its key and count it. -/
def hashAddSym (t : HashTab α K) (sym : α) : HashTab α K :=
  let p := Slot.head (t.fpHash (key sym) % t.maxSize)
  let tmp := t.cell p
  let m := t.toMem.setCell p (some sym)
  let m := m.setPrev sym (some p)
  let m := m.setCell (.next sym) tmp
  let m := m.setPrevOf tmp (some (.next sym))
  { t with toMem := m, currNum := t.currNum + 1 }

/-- `hash_del_sym`: take the symbol out of its chain through its back pointer and count it off. -/
def hashDelSym (t : HashTab α K) (sym : α) : Option (HashTab α K) := do
  let p ← t.prev sym
  let next := t.cell (.next sym)
  let m := t.toMem.setCell p next
  let m := m.setPrevOf next (t.prev sym)
  some { t with toMem := m, currNum := t.currNum - 1 }

/-- The loop of `hash_find_sym`: follow the chain to the first symbol whose key compares as
equal. -/
def findLoop (t : HashTab α K) (k : K) : ℕ → Option α → Option (Option α)
  | _, none => some none
  | 0, some _ => none
  | fuel + 1, some p =>
    if t.fpCmp k (key p) ≠ 0 then findLoop t k fuel (t.cell (.next p)) else some (some p)

/-- `hash_find_sym`: the first symbol with the key in the chain of its hash value, if there is
one. -/
def hashFindSym (t : HashTab α K) (k : K) (fuel : ℕ) : Option (Option α) :=
  findLoop key t k fuel (t.cell (.head (t.fpHash k % t.maxSize)))

variable {σ ε : Type} (tab : σ → HashTab α K) (pnt : α → σ → Except (Halt ε) σ)

/-- The walk along a chain.  The pointer to the next symbol is read after the call. -/
def walkChain : ℕ → Option α → σ → Except (Halt ε) σ
  | _, none, s => .ok s
  | 0, some _, _ => .error .cutOff
  | fuel + 1, some sym, s => do
    let s ← pnt sym s
    walkChain fuel ((tab s).cell (.next sym)) s

/-- The walk along all chains of the table, from the first to the last, with a call for each
symbol. -/
def walkTab (fuel : ℕ) (s : σ) : Except (Halt ε) σ :=
  (List.range (tab s).maxSize).foldlM (fun s i => walkChain tab pnt fuel ((tab s).cell (.head i)) s)
    s

/-- The print function is called for the symbols of a list. -/
def callAll (l : List α) (s : σ) : Except (Halt ε) σ := l.foldlM (fun s sym => pnt sym s) s

/-- `*p_out++ = sym`, in an array of `currNum` pointers. -/
def pushOut (t : HashTab α K) (sym : α) (out : List α) : Except (Halt ε) (List α) :=
  if (out.length : ℤ) < t.currNum then .ok (out ++ [sym]) else .error .overrun

/-- `hash_print_tab`: call the print function for every symbol, in the order of the table or sorted
by `qsort`. -/
def hashPrintTab (qsort : (α → α → ℤ) → List α → List α) (sort : Bool) (fuel : ℕ) (s : σ) :
    Except (Halt ε) σ :=
  if sort then do
    let t := tab s
    let out ← walkTab (fun _ => t) (pushOut t) fuel []
    if (out.length : ℤ) = t.currNum then
      callAll pnt (qsort (fun a b => t.fpCmp (key a) (key b)) out) s
    else .error .overrun
  else walkTab tab pnt fuel s

end Functions

/-! ## A client -/

/-- A call of a client that changes the table. -/
inductive HashCall (α : Type) where
  /-- `hash_add_sym`, which puts a symbol in. -/
  | add (sym : α)
  /-- `hash_del_sym`, which takes a symbol out. -/
  | del (sym : α)
deriving DecidableEq

section Client

variable {α K : Type} [DecidableEq α]

/-- What a call of a client does to the table. -/
def HashCall.exec (key : α → K) (t : HashTab α K) : HashCall α → Option (HashTab α K)
  | .add sym => some (hashAddSym key t sym)
  | .del sym => hashDelSym t sym

/-- What a call means for the live symbols, the last one that was added first.  A live symbol is not
added again, and only a live one is deleted. -/
def HashCall.denote (live : List α) : HashCall α → Option (List α)
  | .add sym => if sym ∈ live then none else some (sym :: live)
  | .del sym => if sym ∈ live then some (live.erase sym) else none

end Client

/-! ## The live symbols -/

section Live

variable {α K : Type} {key : α → K} {t t' : HashTab α K} {live : List α} {n : α}

/-- The number of the chain in which a symbol belongs. -/
def HashTab.bucketOf (t : HashTab α K) (key : α → K) (n : α) : ℕ := t.fpHash (key n) % t.maxSize

/-- The chains hold the live symbols, the last one that was added first. -/
structure HashTab.Live (t : HashTab α K) (key : α → K) (live : List α) : Prop where
  /-- The chains hold the live symbols by bucket. -/
  holds : Holds t.toMem (fun i => live.filter (fun n => t.bucketOf key n = i))
  /-- A symbol is in the table once. -/
  nodup : live.Nodup
  /-- The number of symbols is that of the live ones. -/
  count : t.currNum = live.length
  /-- There is at least one chain. -/
  size : 0 < t.maxSize

/-- A new table holds no symbols. -/
lemma live_hashMakeTab (key : α → K) (maxSym : ℕ) (fpHash : K → ℕ) (fpCmp : K → K → ℤ) :
    (hashMakeTab maxSym fpHash fpCmp : HashTab α K).Live key [] := by
  refine ⟨holds_empty, List.nodup_nil, rfl, ?_⟩
  change 0 < if maxSym = 0 then 1024 else maxSym
  split <;> omega

/-- Every live symbol has a back pointer, and the pointer that it leads to points at the symbol. -/
lemma HashTab.Live.exists_prev (h : t.Live key live) (hn : n ∈ live) :
    ∃ p, t.prev n = some p ∧ t.cell p = some n := by
  obtain ⟨p, hp, hcell, -⟩ := (h.holds.chain (t.bucketOf key n)).exists_prev
    (List.mem_filter.mpr ⟨hn, decide_eq_true rfl⟩)
  exact ⟨p, hp, hcell⟩

/-- The loop of `hash_find_sym` stops at the first symbol with an equal key. -/
lemma findLoop_eq (t : HashTab α K) (k : K) {p : Slot ℕ α} {l : List α} (h : IsChain t.toMem p l)
    {fuel : ℕ} (hfuel : l.length ≤ fuel) :
    findLoop key t k fuel (t.cell p) = some (l.find? (fun n => t.fpCmp k (key n) = 0)) := by
  induction l generalizing p fuel with
  | nil =>
    rw [show t.cell p = none from h]
    unfold findLoop
    rfl
  | cons n l ih =>
    obtain ⟨hcell, -, hrest⟩ := h
    obtain ⟨fuel, rfl⟩ := Nat.exists_eq_add_of_lt (Nat.lt_of_lt_of_le (Nat.zero_lt_succ _) hfuel)
    rw [Nat.zero_add, hcell]
    unfold findLoop
    by_cases heq : t.fpCmp k (key n) = 0
    · rw [if_neg (not_not.mpr heq), List.find?_cons_of_pos (by simpa using heq)]
    · rw [if_pos heq, List.find?_cons_of_neg (by simpa using heq)]
      exact ih hrest (by simpa using hfuel)

/-- Symbols with equal keys are in one chain, so that looking through the chain finds what looking
through all would find. -/
lemma find_filter_bucket (hhash : ∀ k k', t.fpCmp k k' = 0 → t.fpHash k = t.fpHash k') (k : K)
    (l : List α) :
    (l.filter fun n => t.bucketOf key n = t.fpHash k % t.maxSize).find?
    (fun n => t.fpCmp k (key n) = 0) =
      l.find? fun n => t.fpCmp k (key n) = 0 := by
  rw [List.find?_filter]
  refine congrArg (List.find? · l) (funext fun n => ?_)
  rw [Bool.eq_iff_iff, decide_eq_true_iff]
  refine ⟨fun hn => hn.2, fun hn => ⟨?_, hn⟩⟩
  unfold HashTab.bucketOf
  rw [hhash k (key n) (of_decide_eq_true hn)]
  exact decide_eq_true rfl

/-- `hash_find_sym` finds the last symbol with an equal key. -/
lemma HashTab.Live.find (h : t.Live key live) (hhash : ∀ k k', t.fpCmp k k' = 0 →
    t.fpHash k = t.fpHash k') (k : K) {fuel : ℕ} (hfuel : live.length ≤ fuel) :
    hashFindSym key t k fuel = some (live.find? (fun n => t.fpCmp k (key n) = 0)) := by
  unfold hashFindSym
  rw [findLoop_eq t k (h.holds.chain _) ((List.length_filter_le _ live).trans hfuel)]
  exact congrArg some (find_filter_bucket hhash k live)

variable [DecidableEq α]

/-- `hash_add_sym` makes a live table of a live one, with the new symbol as the latest. -/
lemma HashTab.Live.add (h : t.Live key live) (hn : n ∉ live) :
    (hashAddSym key t n).Live key (n :: live) := by
  have hchains : (fun i => (n :: live).filter (fun a => t.bucketOf key a = i)) =
      Function.update (fun i => live.filter (fun a => t.bucketOf key a = i)) (t.bucketOf key n)
        (n :: live.filter (fun a => t.bucketOf key a = t.bucketOf key n)) := by
    funext i
    by_cases hi : i = t.bucketOf key n
    · subst hi
      rw [Function.update_self, List.filter_cons_of_pos (by simp)]
    · rw [Function.update_of_ne hi, List.filter_cons_of_neg (by simpa using Ne.symm hi)]
  have hpush := h.holds.push (t.bucketOf key n) (n := n) fun j hj => hn (List.mem_filter.mp hj).1
  rw [← hchains] at hpush
  refine ⟨hpush, List.nodup_cons.mpr ⟨hn, h.nodup⟩, ?_, h.size⟩
  change t.currNum + 1 = ((live.length + 1 : ℕ) : ℤ)
  rw [h.count, Nat.cast_succ]

/-- `hash_del_sym` succeeds on a live symbol and leaves a live table without it. -/
lemma HashTab.Live.del (h : t.Live key live) (hn : n ∈ live) : ∃ t', hashDelSym t n = some t' ∧
    t'.Live key (live.erase n) ∧ (t'.maxSize = t.maxSize ∧ t'.fpHash = t.fpHash ∧
    t'.fpCmp = t.fpCmp) := by
  have hchains : (fun i => (live.erase n).filter (fun a => t.bucketOf key a = i)) =
      Function.update (fun i => live.filter (fun a => t.bucketOf key a = i)) (t.bucketOf key n)
        ((live.filter (fun a => t.bucketOf key a = t.bucketOf key n)).erase n) := by
    funext i
    rw [h.nodup.erase_eq_filter, List.filter_comm, ← List.Nodup.erase_eq_filter (h.nodup.filter _)]
    by_cases hi : i = t.bucketOf key n
    · subst hi
      rw [Function.update_self]
    · rw [Function.update_of_ne hi, List.erase_of_not_mem]
      intro hmem
      exact hi (of_decide_eq_true (List.mem_filter.mp hmem).2).symm
  have hmem : n ∈ live.filter (fun a => t.bucketOf key a = t.bucketOf key n) :=
    List.mem_filter.mpr ⟨hn, decide_eq_true rfl⟩
  obtain ⟨m', hm', hholds⟩ := h.holds.unlink hmem
  rw [← hchains] at hholds
  refine ⟨{ t with toMem := m', currNum := t.currNum - 1 },
    ?_, ⟨hholds, h.nodup.erase n, ?_, h.size⟩, rfl, rfl, rfl⟩
  · obtain ⟨p, hp, -⟩ := Option.bind_eq_some_iff.mp hm'
    unfold Mem.unlink at hm'
    unfold hashDelSym
    rw [hp] at hm' ⊢
    cases hm'
    rfl
  · have hpos := List.length_pos_of_mem hn
    change t.currNum - 1 = _
    rw [h.count, List.length_erase_of_mem hn]
    omega

/-- Every sequence of calls that is in order for the list of live symbols keeps the table live. -/
lemma HashTab.Live.exec {calls : List (HashCall α)} (h : t.Live key live) {live' : List α}
    (hcalls : calls.foldlM HashCall.denote live = some live') :
    ∃ t', calls.foldlM (HashCall.exec key) t = some t' ∧
      t'.Live key live' ∧ (t'.maxSize = t.maxSize ∧ t'.fpHash = t.fpHash ∧ t'.fpCmp = t.fpCmp) := by
  induction calls generalizing t live with
  | nil =>
    cases hcalls
    exact ⟨t, rfl, h, rfl, rfl, rfl⟩
  | cons c calls ih =>
    rw [List.foldlM_cons] at hcalls ⊢
    obtain ⟨live₁, hc, hcalls⟩ := Option.bind_eq_some_iff.mp hcalls
    have hstep : ∃ t₁, c.exec key t = some t₁ ∧ t₁.Live key live₁ ∧
        (t₁.maxSize = t.maxSize ∧ t₁.fpHash = t.fpHash ∧ t₁.fpCmp = t.fpCmp) := by
      rcases c with n | n
      · change (if n ∈ live then none else some (n :: live)) = some live₁ at hc
        split at hc
        · cases hc
        · cases hc
          exact ⟨_, rfl, h.add ‹_›, rfl, rfl, rfl⟩
      · change (if n ∈ live then some (live.erase n) else none) = some live₁ at hc
        split at hc
        · cases hc
          exact h.del ‹_›
        · cases hc
    obtain ⟨t₁, hexec, hlive₁, hsize, hhash, hcmp⟩ := hstep
    obtain ⟨t', hrun, hlive', hsize', hhash', hcmp'⟩ := ih hlive₁ hcalls
    refine ⟨t', ?_, hlive', hsize'.trans hsize, hhash'.trans hhash, hcmp'.trans hcmp⟩
    rw [hexec]
    exact hrun

end Live

/-! ## The walk -/

section Walk

variable {α K σ ε : Type} {key : α → K} {tab : σ → HashTab α K} {pnt : α → σ → Except (Halt ε) σ}
  {live : σ → List α} {I : σ → Prop}

/-- The number of chains and the functions are the same. -/
def HashTab.SameFns (t t' : HashTab α K) : Prop :=
  t'.maxSize = t.maxSize ∧ t'.fpHash = t.fpHash ∧ t'.fpCmp = t.fpCmp

/-- A table has the same size and functions as itself. -/
lemma HashTab.SameFns.refl (t : HashTab α K) : t.SameFns t := ⟨rfl, rfl, rfl⟩

/-- Two steps that keep the size and the functions keep them together. -/
lemma HashTab.SameFns.trans {t₁ t₂ t₃ : HashTab α K} (h : t₁.SameFns t₂) (h' : t₂.SameFns t₃) :
    t₁.SameFns t₃ :=
  ⟨h'.1.trans h.1, h'.2.1.trans h.2.1, h'.2.2.trans h.2.2⟩

/-- As long as the size and the functions stay, a symbol belongs in the same chain. -/
lemma HashTab.SameFns.bucketOf {t t' : HashTab α K} (h : t.SameFns t') (n : α) :
    t'.bucketOf key n = t.bucketOf key n := by
  unfold HashTab.bucketOf
  rw [h.1, h.2.1]

variable (tab live) in
/-- What a call of the print function may do to the table: symbols are taken out, but not the one
that it is called for. -/
structure Shrinks (s s' : σ) : Prop where
  /-- The functions of the table are the same. -/
  same : (tab s).SameFns (tab s')
  /-- The live symbols are some of those before. -/
  sublist : (live s').Sublist (live s)

/-- Two steps that only take symbols away do so together. -/
lemma Shrinks.trans {s₁ s₂ s₃ : σ} (h : Shrinks tab live s₁ s₂) (h' : Shrinks tab live s₂ s₃) :
    Shrinks tab live s₁ s₃ :=
  ⟨h.same.trans h'.same, h'.sublist.trans h.sublist⟩

variable (key tab pnt live I) in
/-- The condition on the print function: it keeps `I`, the table has the symbols `live`, and only
other symbols are taken out. -/
structure Walkable : Prop where
  /-- The table holds the live symbols. -/
  table : ∀ s, I s → (tab s).Live key (live s)
  /-- One call keeps the invariant and its own symbol. -/
  step : ∀ s n s', I s → n ∈ live s → pnt n s = .ok s' → I s' ∧ Shrinks tab live s s' ∧ n ∈ live s'

/-- What is left of a list with a member has the member between what is left around it. -/
lemma exists_append_of_sublist {l pre post : List α} {n : α} (h : l.Sublist (pre ++ n :: post))
    (hn : n ∈ l) (hnodup : (pre ++ n :: post).Nodup) :
    ∃ pre' post', l = pre' ++ n :: post' ∧ pre'.Sublist pre ∧ post'.Sublist post := by
  obtain ⟨l₁, l₂, rfl, h₁, h₂⟩ := List.sublist_append_iff.mp h
  obtain ⟨-, hpost, hdisj⟩ := List.nodup_append.mp hnodup
  have hn₁ : n ∉ l₁ := fun hmem => hdisj n (h₁.subset hmem) n List.mem_cons_self rfl
  have hn₂ : n ∈ l₂ := (List.mem_append.mp hn).resolve_left hn₁
  rcases List.sublist_cons_iff.mp h₂ with hsub | ⟨post', rfl, hsub⟩
  · exact absurd (hsub.subset hn₂) (List.nodup_cons.mp hpost).1
  · exact ⟨l₁, post', rfl, h₁, hsub⟩

/-- The rest of a chain: the walk calls the print function for a part of it, in order, and leaves
out only symbols that are not live any more when it has reached the end. -/
lemma walkChain_spec (hw : Walkable key tab pnt live I) {i : ℕ} {s : σ} (hs : I s)
    {pre rest : List α}
    (hchain : (live s).filter (fun n => (tab s).bucketOf key n = i) = pre ++ rest) {fuel : ℕ}
    (hfuel : rest.length ≤ fuel) : ∃ vs : List α, vs.Sublist rest ∧
      walkChain tab pnt fuel rest.head? s = callAll pnt vs s ∧
      ∀ s', callAll pnt vs s = .ok s' →
        I s' ∧ Shrinks tab live s s' ∧ ∀ n ∈ live s', n ∈ rest → n ∈ vs := by
  induction fuel generalizing s pre rest with
  | zero =>
    obtain rfl := List.length_eq_zero_iff.mp (Nat.le_zero.mp hfuel)
    refine ⟨[], List.Sublist.refl [], rfl, ?_⟩
    intro s' hs'
    cases hs'
    exact ⟨hs, ⟨.refl _, List.Sublist.refl _⟩, fun n _ hn => hn⟩
  | succ fuel ih =>
    rcases rest with _ | ⟨n, post⟩
    · refine ⟨[], List.Sublist.refl [], rfl, ?_⟩
      intro s' hs'
      cases hs'
      exact ⟨hs, ⟨.refl _, List.Sublist.refl _⟩, fun n _ hn => hn⟩
    · have hnodup : (pre ++ n :: post).Nodup := hchain ▸ (hw.table s hs).nodup.filter _
      have hmem : n ∈ (live s).filter (fun n => (tab s).bucketOf key n = i) :=
        hchain ▸ List.mem_append_right pre List.mem_cons_self
      rcases hpnt : pnt n s with e | s₁
      · -- the call ends the walk
        have hfold : callAll pnt [n] s = .error e := by
          unfold callAll
          rw [List.foldlM_cons, hpnt]
          rfl
        refine ⟨[n], List.cons_sublist_cons.mpr (List.nil_sublist post), ?_, ?_⟩
        · rw [hfold]
          change (pnt n s).bind _ = _
          rw [hpnt]
          rfl
        · intro s' hs'
          rw [hfold] at hs'
          cases hs'
      · obtain ⟨hs₁, hshrinks, hn₁⟩ := hw.step s n s₁ hs (List.mem_filter.mp hmem).1 hpnt
        have hsub :
            ((live s₁).filter (fun n => (tab s₁).bucketOf key n = i)).Sublist
            (pre ++ n :: post) := by
          rw [← hchain]
          refine (List.filter_congr fun a _ => ?_).symm ▸ hshrinks.sublist.filter _
          rw [hshrinks.same.bucketOf]
        have hn₁' : n ∈ (live s₁).filter (fun n => (tab s₁).bucketOf key n = i) := by
          refine List.mem_filter.mpr ⟨hn₁, ?_⟩
          rw [hshrinks.same.bucketOf]
          exact (List.mem_filter.mp hmem).2
        obtain ⟨pre', post', hchain₁, hpre, hpost⟩ := exists_append_of_sublist hsub hn₁' hnodup
        have hnext : (tab s₁).cell (.next n) = post'.head? := by
          have hholds := (hw.table s₁ hs₁).holds.chain i
          rw [hchain₁] at hholds
          exact hholds.of_append.cell_eq
        have hchain₂ :
            (live s₁).filter (fun n => (tab s₁).bucketOf key n = i) = (pre' ++ [n]) ++ post' := by
          simpa using hchain₁
        obtain ⟨vs, hvs, hwalk, hok⟩ := ih hs₁ hchain₂
          (hpost.length_le.trans (by simpa using hfuel))
        have hfold : callAll pnt (n :: vs) s = callAll pnt vs s₁ := by
          unfold callAll
          rw [List.foldlM_cons, hpnt]
          rfl
        refine ⟨n :: vs, (hvs.trans hpost).cons_cons n, ?_, ?_⟩
        · rw [hfold, ← hwalk, ← hnext]
          change (pnt n s).bind _ = _
          rw [hpnt]
          rfl
        · intro s' hs'
          rw [hfold] at hs'
          obtain ⟨hI, hshrinks', hcomplete⟩ := hok s' hs'
          refine ⟨hI, hshrinks.trans hshrinks', ?_⟩
          intro a ha hrest
          rcases List.mem_cons.mp hrest with rfl | hapost
          · exact List.mem_cons_self
          · refine List.mem_cons_of_mem n (hcomplete a ha ?_)
            have ha₁ : a ∈ pre' ++ n :: post' := by
              rw [← hchain₁]
              have hbucket : a ∈ (live s).filter (fun n => (tab s).bucketOf key n = i) :=
                hchain ▸ List.mem_append_right pre hrest
              refine List.mem_filter.mpr ⟨hshrinks'.sublist.subset ha, ?_⟩
              rw [hshrinks.same.bucketOf]
              exact (List.mem_filter.mp hbucket).2
            obtain ⟨-, hnpost, hdisj⟩ := List.nodup_append.mp hnodup
            rcases List.mem_append.mp ha₁ with hapre | hamem
            · exact absurd rfl (hdisj a (hpre.subset hapre) a hrest)
            · refine (List.mem_cons.mp hamem).resolve_left ?_
              rintro rfl
              exact (List.nodup_cons.mp hnpost).1 hapost

/-- The walk of some chains comes to different live symbols that belong in these chains, or
stops. -/
lemma walkChains_spec (hw : Walkable key tab pnt live I) {is : List ℕ} (his : is.Nodup) {s : σ}
    (hs : I s) {fuel : ℕ} (hfuel : (live s).length ≤ fuel) : ∃ vs : List α, vs.Nodup ∧
      (∀ n ∈ vs, n ∈ live s ∧ (tab s).bucketOf key n ∈ is) ∧
      is.foldlM (fun s i => walkChain tab pnt fuel ((tab s).cell (.head i)) s) s =
      callAll pnt vs s ∧ ∀ s', callAll pnt vs s = .ok s' →
        I s' ∧ Shrinks tab live s s' ∧ ∀ n ∈ live s', (tab s).bucketOf key n ∈ is → n ∈ vs := by
  induction is generalizing s with
  | nil =>
    refine ⟨[], List.nodup_nil, fun n hn => absurd hn List.not_mem_nil, rfl, ?_⟩
    intro s' hs'
    cases hs'
    exact ⟨hs, ⟨.refl _, List.Sublist.refl _⟩, fun n _ hn => absurd hn List.not_mem_nil⟩
  | cons i is ih =>
    obtain ⟨hi, his⟩ := List.nodup_cons.mp his
    have hlive := hw.table s hs
    have hchain : (live s).filter (fun n => (tab s).bucketOf key n = i) =
        [] ++ (live s).filter (fun n => (tab s).bucketOf key n = i) := rfl
    obtain ⟨vs, hvs, hwalk, hok⟩ := walkChain_spec hw hs hchain
      ((List.length_filter_le _ _).trans hfuel)
    rw [← (hlive.holds.chain i).cell_eq] at hwalk
    have hmem : ∀ n ∈ vs, n ∈ live s ∧ (tab s).bucketOf key n = i := by
      intro n hn
      obtain ⟨hn, hbucket⟩ := List.mem_filter.mp (hvs.subset hn)
      exact ⟨hn, of_decide_eq_true hbucket⟩
    have hnodup : vs.Nodup := hvs.nodup (hlive.nodup.filter _)
    rw [List.foldlM_cons, hwalk]
    rcases hcall : callAll pnt vs s with e | s₁
    · refine ⟨vs, hnodup, fun n hn => ⟨(hmem n hn).1, (hmem n hn).2 ▸ List.mem_cons_self⟩,
        hcall.symm, ?_⟩
      intro s' hs'
      rw [hcall] at hs'
      cases hs'
    · obtain ⟨hs₁, hshrinks, hcomplete⟩ := hok s₁ hcall
      obtain ⟨vs', hnodup', hmem', hwalk', hok'⟩ :=
        ih his hs₁ (hshrinks.sublist.length_le.trans hfuel)
      have happend : callAll pnt (vs ++ vs') s = callAll pnt vs' s₁ := by
        unfold callAll at hcall ⊢
        rw [List.foldlM_append, hcall]
        rfl
      refine ⟨vs ++ vs', ?_, ?_, ?_, ?_⟩
      · refine List.nodup_append.mpr ⟨hnodup, hnodup', ?_⟩
        rintro n hn _ hn' rfl
        have hbucket := (hmem' n hn').2
        rw [hshrinks.same.bucketOf, (hmem n hn).2] at hbucket
        exact hi hbucket
      · intro n hn
        rcases List.mem_append.mp hn with hn | hn
        · exact ⟨(hmem n hn).1, (hmem n hn).2 ▸ List.mem_cons_self⟩
        · obtain ⟨hn, hbucket⟩ := hmem' n hn
          rw [hshrinks.same.bucketOf] at hbucket
          exact ⟨hshrinks.sublist.subset hn, List.mem_cons_of_mem i hbucket⟩
      · rw [happend]
        exact hwalk'
      · intro s' hs'
        rw [happend] at hs'
        obtain ⟨hI, hshrinks', hcomplete'⟩ := hok' s' hs'
        refine ⟨hI, hshrinks.trans hshrinks', ?_⟩
        intro n hn hbucket
        have hn₁ := hshrinks'.sublist.subset hn
        rcases List.mem_cons.mp hbucket with hbucket | hbucket
        · refine List.mem_append_left vs' (hcomplete n hn₁ ?_)
          exact List.mem_filter.mpr ⟨hshrinks.sublist.subset hn₁, decide_eq_true hbucket⟩
        · refine List.mem_append_right vs (hcomplete' n hn ?_)
          rw [hshrinks.same.bucketOf]
          exact hbucket

/-- The walk calls the print function once for every symbol that is live at its end, and never twice
for any symbol. -/
theorem walkTab_spec (hw : Walkable key tab pnt live I) {s : σ} (hs : I s) {fuel : ℕ}
    (hfuel : (live s).length ≤ fuel) : ∃ vs : List α, vs.Nodup ∧ (∀ n ∈ vs, n ∈ live s) ∧
      walkTab tab pnt fuel s = callAll pnt vs s ∧
      ∀ s', callAll pnt vs s = .ok s' → I s' ∧ Shrinks tab live s s' ∧ ∀ n ∈ live s', n ∈ vs := by
  obtain ⟨vs, hnodup, hmem, hwalk, hok⟩ := walkChains_spec hw List.nodup_range hs hfuel
  refine ⟨vs, hnodup, fun n hn => (hmem n hn).1, hwalk, ?_⟩
  intro s' hs'
  obtain ⟨hI, hshrinks, hcomplete⟩ := hok s' hs'
  refine ⟨hI, hshrinks, fun n hn => hcomplete n hn (List.mem_range.mpr ?_)⟩
  exact Nat.mod_lt _ (hw.table s hs).size

/-- When the print function leaves the table as it is, the walk calls it for every live symbol
once. -/
lemma walkTab_const {t : HashTab α K} {l : List α} (ht : t.Live key l)
    (pnt : α → σ → Except (Halt ε) σ) {fuel : ℕ} (hfuel : l.length ≤ fuel) (s : σ) : ∃ vs :
    List α, vs.Nodup ∧ (∀ n ∈ vs, n ∈ l) ∧
      walkTab (fun _ => t) pnt fuel s = callAll pnt vs s ∧ ∀ s', callAll pnt vs s = .ok s' →
      vs.Perm l := by
  have hw : Walkable key (fun _ => t) pnt (fun _ => l) (fun _ => True) :=
    ⟨fun _ _ => ht, fun _ _ _ _ hn _ => ⟨trivial, ⟨.refl _, List.Sublist.refl _⟩, hn⟩⟩
  obtain ⟨vs, hnodup, hmem, hwalk, hok⟩ := walkTab_spec hw (s := s) trivial hfuel
  refine ⟨vs, hnodup, hmem, hwalk, fun s' hs' => ?_⟩
  obtain ⟨-, -, hcomplete⟩ := hok s' hs'
  exact (List.perm_ext_iff_of_nodup hnodup ht.nodup).mpr fun n => ⟨hmem n, hcomplete n⟩

/-- When the print function always returns, the calls are a fold over the list of symbols. -/
lemma callAll_ok (pnt : α → σ → σ) (l : List α) (s : σ) :
    callAll (fun n s => (.ok (pnt n s) : Except (Halt ε) σ)) l s =
    .ok (l.foldl (fun s n => pnt n s) s) := by
  induction l generalizing s with
  | nil => rfl
  | cons n l ih => exact ih (pnt n s)

/-- The array of `hash_print_tab` has room for all symbols if the table counts them right. -/
lemma callAll_pushOut (t : HashTab α K) (l out : List α)
    (h : ((out.length + l.length : ℕ) : ℤ) ≤ t.currNum) :
    callAll (pushOut t) l out = (.ok (out ++ l) : Except (Halt ε) (List α)) := by
  induction l generalizing out with
  | nil =>
    rw [List.append_nil]
    rfl
  | cons n l ih =>
    have hlt : (out.length : ℤ) < t.currNum := by
      rw [List.length_cons] at h
      omega
    have hpush : (pushOut t n out : Except (Halt ε) (List α)) = .ok (out ++ [n]) := if_pos hlt
    have hrest :=
      ih (out ++ [n])
        (by rw [List.length_append, List.length_singleton, List.length_cons] at *; omega)
    unfold callAll at hrest ⊢
    rw [List.foldlM_cons, hpush]
    exact hrest.trans (by rw [List.append_assoc, List.singleton_append])

end Walk

/-! ## The table -/

/-- A comparison that `qsort` can sort by: total and transitive. -/
structure Consistent {α : Type} (cmp : α → α → ℤ) : Prop where
  /-- Two elements can be compared. -/
  total : ∀ a b, cmp a b ≤ 0 ∨ cmp b a ≤ 0
  /-- The comparison is transitive. -/
  trans : ∀ a b c, cmp a b ≤ 0 → cmp b c ≤ 0 → cmp a c ≤ 0

/-- What `qsort` does: the elements are permuted, and sorted if the comparison is consistent. -/
structure Sorts {α : Type} (qsort : (α → α → ℤ) → List α → List α) : Prop where
  /-- The result is a permutation of the list. -/
  perm : ∀ cmp l, (qsort cmp l).Perm l
  /-- The result is in order when the comparison is. -/
  sorted : ∀ cmp l, Consistent cmp → (qsort cmp l).Pairwise (fun a b => cmp a b ≤ 0)

section Table

variable {α K : Type} [DecidableEq α] {key : α → K} {t : HashTab α K} {live : List α}

omit [DecidableEq α] in
/-- `hash_print_tab` with a print function that leaves the table as it is. -/
lemma HashTab.Live.print (h : t.Live key live) {qsort : (α → α → ℤ) → List α → List α}
    (hqsort : Sorts qsort) {σ ε : Type} (pnt : α → σ → σ) (sort : Bool) {fuel : ℕ}
    (hfuel : live.length ≤ fuel) (s : σ) : ∃ order : List α, order.Perm live ∧
      (sort = true → Consistent (fun a b => t.fpCmp (key a) (key b)) →
        order.Pairwise (fun a b => t.fpCmp (key a) (key b) ≤ 0)) ∧
      hashPrintTab key (fun _ => t) (fun n s => (.ok (pnt n s) : Except (Halt ε) σ)) qsort sort fuel
      s =
        .ok (order.foldl (fun s n => pnt n s) s) := by
  unfold hashPrintTab
  cases sort with
  | false =>
    obtain ⟨vs, -, -, hwalk, hperm⟩ :=
      walkTab_const h (fun n s => (.ok (pnt n s) : Except (Halt ε) σ)) hfuel s
    have hok := callAll_ok (ε := ε) pnt vs s
    exact ⟨vs, hperm _ hok, fun h => absurd h Bool.false_ne_true, hwalk.trans hok⟩
  | true =>
    -- the pointers are collected, sorted and printed
    obtain ⟨vs, hnodup, hmem, hwalk, hperm⟩ := walkTab_const h (pushOut (ε := ε) t) hfuel []
    have hle : vs.length ≤ live.length := (hnodup.subperm hmem).length_le
    have hok : callAll (pushOut t) vs [] = (.ok ([] ++ vs) : Except (Halt ε) (List α)) :=
      callAll_pushOut t vs [] (by rw [h.count, List.length_nil, Nat.zero_add]; omega)
    have hvs := hperm _ hok
    refine ⟨qsort (fun a b => t.fpCmp (key a) (key b)) vs, (hqsort.perm _ vs).trans hvs,
      fun _ hcmp => hqsort.sorted _ vs hcmp, ?_⟩
    rw [if_pos rfl]
    change (walkTab (fun _ => t) (pushOut t) fuel []).bind _ = _
    rw [hwalk, hok, List.nil_append]
    change (if (vs.length : ℤ) = t.currNum then _ else _) = _
    rw [if_pos (by rw [h.count, hvs.length_eq])]
    exact callAll_ok pnt _ s

/-- After every sequence of calls a search finds the last live symbol with an equal key, the number
of symbols is right, every bucket knows the pointer that points at it, and the print function is
called once for every live symbol. -/
theorem hash_table (key : α → K) (maxSym : ℕ) (fpHash : K → ℕ) (fpCmp : K → K → ℤ)
    (hhash : ∀ k k', fpCmp k k' = 0 → fpHash k = fpHash k') (qsort : (α → α → ℤ) → List α → List α)
    (hqsort : Sorts qsort) (calls : List (HashCall α)) (live : List α)
    (hcalls : calls.foldlM HashCall.denote [] = some live) :
    ∃ t, calls.foldlM (HashCall.exec key) (hashMakeTab maxSym fpHash fpCmp) = some t ∧
      (∀ k fuel, live.length ≤ fuel →
        hashFindSym key t k fuel = some (live.find? (fun n => fpCmp k (key n) = 0))) ∧
      t.currNum = live.length ∧
      (∀ n ∈ live, ∃ p, t.prev n = some p ∧ t.cell p = some n) ∧
      ∀ {σ ε : Type} (pnt : α → σ → σ) (sort : Bool) (fuel : ℕ) (s : σ), live.length ≤ fuel →
        ∃ order : List α, order.Perm live ∧
          (sort = true → Consistent (fun a b => fpCmp (key a) (key b)) →
            order.Pairwise (fun a b => fpCmp (key a) (key b) ≤ 0)) ∧
          hashPrintTab key (fun _ => t) (fun n s => (.ok (pnt n s) : Except (Halt ε) σ)) qsort sort
          fuel s =
            .ok (order.foldl (fun s n => pnt n s) s) := by
  obtain ⟨t, hrun, hlive, -, hhash', hcmp⟩ := (live_hashMakeTab key maxSym fpHash fpCmp).exec hcalls
  have hcmp' : t.fpCmp = fpCmp := hcmp
  have hhash'' : t.fpHash = fpHash := hhash'
  subst hcmp' hhash''
  exact ⟨t, hrun, fun k fuel hfuel => hlive.find hhash k hfuel, hlive.count, fun n hn =>
    hlive.exists_prev hn,
    fun pnt sort fuel s hfuel => hlive.print hqsort pnt sort hfuel s⟩

/-- Symbols that are their own keys, in a table with one chain; `7` and `17` have equal keys.  The
second of them is deleted again. -/
theorem hash_table_mod : ∃ t, [.add 7, .add 17, .add 8, .del 17].foldlM (HashCall.exec id)
      (hashMakeTab 1 (· % 10) (fun k k' => (k % 10 : ℕ) - (k' % 10 : ℕ))) = some t ∧
    (∀ k fuel, 2 ≤ fuel →
      hashFindSym id t k fuel =
      some ([8, 7].find? (fun n => ((k % 10 : ℕ) : ℤ) - (n % 10 : ℕ) = 0))) ∧
    t.currNum = 2 ∧
    (∀ n ∈ [8, 7], ∃ p, t.prev n = some p ∧ t.cell p = some n) ∧
    ∀ {σ ε : Type} (pnt : ℕ → σ → σ) (sort : Bool) (fuel : ℕ) (s : σ), 2 ≤ fuel →
      ∃ order : List ℕ, order.Perm [8, 7] ∧
        (sort = true → Consistent (fun a b : ℕ => ((a % 10 : ℕ) : ℤ) - (b % 10 : ℕ)) →
          order.Pairwise (fun a b : ℕ => ((a % 10 : ℕ) : ℤ) - (b % 10 : ℕ) ≤ 0)) ∧
        hashPrintTab id (fun _ => t) (fun n s => (.ok (pnt n s) : Except (Halt ε) σ))
            (fun cmp l => l.mergeSort (fun a b => cmp a b ≤ 0)) sort fuel s =
          .ok (order.foldl (fun s n => pnt n s) s) := by
  refine hash_table id 1 (· % 10) (fun k k' => (k % 10 : ℕ) - (k' % 10 : ℕ)) ?_
    (fun cmp l => l.mergeSort (fun a b => cmp a b ≤ 0)) ?_ [.add 7, .add 17, .add 8, .del 17] [8, 7]
    (by decide)
  · intro k k' h
    exact Int.ofNat.inj (Int.sub_eq_zero.mp h)
  · refine ⟨fun cmp l => List.mergeSort_perm l _, fun cmp l hcmp => ?_⟩
    have hsorted := List.pairwise_mergeSort
      (fun a b c hab hbc => decide_eq_true
      (hcmp.trans a b c (of_decide_eq_true hab) (of_decide_eq_true hbc)))
      (fun a b => by simpa using hcmp.total a b) l
    exact hsorted.imp fun h => of_decide_eq_true h

end Table

end Support
