import Cgkits.Parser.Lalr
import Cgkits.Support.Hash

/-!
# The table of states (`yystate.c`)

`newstate` looks for a state with the same items in the kernel in a hash table, where `state_hash`
adds up the numbers of the items and `state_cmp` compares them in order.  In `Automaton.newstate`
the states are searched by number.  Here the hash table is kept beside the states:
`StateTable.newstate` looks a state up in it, and `hashedLr` is `lr` with this table.

The table holds every state, and no two states have equal items (`StateTable.Hashed`).  So the two
searches find the same state, and `hashedLr` builds the same machine as `lr` (`hashedLr_eq`).
-/

namespace Parser

open Support

/-- What `state_hash` and `state_cmp` read of the items of a kernel: the numbers of the productions
and the positions of the dots. -/
abbrev StateKey : Type := List (ℕ × ℕ)

/-- `state_hash`, the sum of the numbers of the productions and the dots of the kernel. -/
def stateHash (items : StateKey) : ℕ :=
  items.foldl (fun total i => (total + (i.1 + i.2)) % 2 ^ 32) 0

/-- The loop of `state_cmp`, which compares the items one after another. -/
def cmpItems : StateKey → StateKey → ℤ
  | item :: items, tabItem :: tabItems =>
    if (item.1 : ℤ) - tabItem.1 ≠ 0 then item.1 - tabItem.1
    else if (item.2 : ℤ) - tabItem.2 ≠ 0 then item.2 - tabItem.2
    else cmpItems items tabItems
  | _, _ => 0

/-- `state_cmp`, of the items that are looked for and those of a state in the table. -/
def stateCmp (items tabItems : StateKey) : ℤ :=
  if (items.length : ℤ) - tabItems.length ≠ 0 then items.length - tabItems.length else
    cmpItems items tabItems

/-- The static variables of `yystate.c`, with `_states_hashtab`. -/
structure StateTable extends Automaton where
  /-- `_states_hashtab`: its symbols are the numbers of the states. -/
  hashtab : HashTab ℕ StateKey

namespace StateTable

/-- The numbers of the items in the kernel of a state. -/
def key (S : StateTable) (n : ℕ) : StateKey := (S.state n).kernelItems.map Item.key

/-- The states have been changed, and the hash table has not. -/
def set (S : StateTable) (A : Automaton) : StateTable := { S with toAutomaton := A }

/-- `hash_make_tab`, called by `make_parse_tables`, makes a table without states. -/
def empty : StateTable := ⟨Automaton.empty, hashMakeTab maxState stateHash stateCmp⟩

/-- `newstate`.  `state_hash` reads the items that are looked for, also when the new state is
added. -/
def newstate (S : StateTable) (items : List Item) : Option (StateTable × ℕ × NewState) :=
  if maxKernel < items.length then none
  else
    match hashFindSym S.key S.hashtab (items.map Item.key) maxState with
    | none => none
    | some (some existing) =>
      some (S, existing, if (S.state existing).closed then .closed else .unclosed)
    | some none =>
      if maxState ≤ S.nstates then none
      else
        some (⟨S.addState items, hashAddSym (fun _ => items.map Item.key) S.hashtab S.nstates⟩,
          S.nstates, .new)

/-- The transition of the state `cur` on the symbol with the value `val`, when `items` are the items
with the dot moved. -/
def transition (S : StateTable) (cur val : ℕ) (items : List Item) : Option StateTable := do
  let (S₁, next, isnew) ← S.newstate items
  let A₂ := S₁.link cur val next
  if isnew = .new then (A₂.addUnfinished next).map S₁.set
  else
    let (kernel, didSomething) ← mergeLookaheads (A₂.state next).kernelItems items
    if didSomething then ((A₂.setKernel next kernel).addUnfinished next).map S₁.set
    else some (S₁.set (A₂.setKernel next kernel))

end StateTable

namespace Grammar

variable (G : Grammar) (F : SetTable)

/-- The visit of the state `cur` in `lr`, with the search of the hash table. -/
def hashedVisit (fuel : ℕ) (S : StateTable) (cur : ℕ) : Option StateTable := do
  let items ← G.closure F fuel (S.state cur).kernelItems
  let items ← kclosure (S.state cur).kernelItems items
  let (eps, rest) ← moveEps (S.state cur).epsilonItems (sortItems items)
  let S' ← (groups rest.length rest).foldlM
    (fun B g => B.transition cur g.1 (g.2.map Item.movedot)) (S.set (S.setEpsilon cur eps))
  some (S'.set (S'.setClosed cur))

/-- The loop of `lr` with the hash table, until no state is unfinished. -/
def hashedLoop (fuel : ℕ) : ℕ → StateTable → Option StateTable
  | 0, _ => none
  | n + 1, S =>
    match S.getUnfinished with
    | none => some S
    | some (cur, A) => (G.hashedVisit F fuel (S.set A) cur).bind (hashedLoop fuel n)

/-- The initial state of `make_parse_tables` in the hash table. -/
def hashedStart : Option StateTable :=
  match G.productions G.goalSymbol with
  | [startProd] =>
    (StateTable.empty.newstate [⟨startProd, 0, {eoi}⟩]).bind fun r => (r.1.addUnfinished r.2.1).map
      r.1.set
  | _ => none

/-- `lr`, called by `make_parse_tables`, with the hash table. -/
def hashedLr (fuel : ℕ) : Option StateTable := G.hashedStart.bind (G.hashedLoop F fuel fuel)

end Grammar

/-! ## Keys -/

/-- Lists of items of one length compare equal exactly if they are equal. -/
lemma cmpItems_eq_zero_iff {items tabItems : StateKey} (hlen : items.length = tabItems.length) :
    cmpItems items tabItems = 0 ↔ items = tabItems := by
  induction items generalizing tabItems with
  | nil =>
    obtain rfl := List.length_eq_zero_iff.mp hlen.symm
    exact ⟨fun _ => rfl, fun _ => rfl⟩
  | cons item items ih =>
    rcases tabItems with _ | ⟨tabItem, tabItems⟩
    · cases hlen
    rw [cmpItems, List.cons.injEq, Prod.ext_iff]
    by_cases hnum : (item.1 : ℤ) - tabItem.1 ≠ 0
    · rw [if_pos hnum]
      exact ⟨fun h => absurd h hnum, fun h => absurd (by rw [h.1.1, sub_self]) hnum⟩
    rw [if_neg hnum]
    by_cases hdot : (item.2 : ℤ) - tabItem.2 ≠ 0
    · rw [if_pos hdot]
      exact ⟨fun h => absurd h hdot, fun h => absurd (by rw [h.1.2, sub_self]) hdot⟩
    rw [if_neg hdot, ih (Nat.succ.inj hlen)]
    exact ⟨fun h => ⟨⟨by omega, by omega⟩, h⟩, fun h => h.2⟩

/-- `state_cmp` finds no difference exactly if there is none. -/
lemma stateCmp_eq_zero_iff {items tabItems : StateKey} : stateCmp items tabItems = 0 ↔
    items = tabItems := by
  unfold stateCmp
  by_cases hlen : (items.length : ℤ) - tabItems.length ≠ 0
  · rw [if_pos hlen]
    exact ⟨fun h => absurd h hlen, fun h => absurd (by rw [h, sub_self]) hlen⟩
  · rw [if_neg hlen]
    exact cmpItems_eq_zero_iff (by omega)

/-- `merge_lookaheads` changes lookaheads only, not the keys of the items. -/
lemma key_mergeLookaheads {dst src : List Item} {r : List Item × Bool}
    (h : mergeLookaheads dst src = some r) : r.1.map Item.key = dst.map Item.key := by
  induction dst generalizing src r with
  | nil =>
    rw [mergeLookaheads.eq_def] at h
    cases h
    rfl
  | cons d dst ih =>
    rcases src with _ | ⟨s, src⟩
    · rw [mergeLookaheads.eq_def] at h
      cases h
      rfl
    rw [mergeLookaheads] at h
    split at h
    · cases h
    obtain ⟨r', hr', heq⟩ := Option.map_eq_some_iff.mp h
    have hrest := ih hr'
    split at heq
    · rw [← heq, List.map_cons, List.map_cons, hrest]
    · rw [← heq, List.map_cons, List.map_cons, hrest]
      rfl

/-! ## The table -/

namespace StateTable

variable {S S' : StateTable} {A : Automaton} {items : List Item} {n : ℕ}

/-- The table holds every state, under the numbers of its items, and no two states have equal
numbers. -/
structure Hashed (S : StateTable) : Prop where
  /-- The states in the table, the last one first. -/
  live : S.hashtab.Live S.key (List.range S.nstates).reverse
  /-- `state_hash` is the hash function. -/
  fpHash : S.hashtab.fpHash = stateHash
  /-- `state_cmp` is the comparison. -/
  fpCmp : S.hashtab.fpCmp = stateCmp
  /-- There are not too many states. -/
  le : S.nstates ≤ maxState
  /-- The items of two states differ. -/
  distinct : ∀ m < S.nstates, ∀ n < S.nstates, S.key m = S.key n → m = n

/-- An empty hash table is in step with an automaton without states. -/
lemma hashed_empty : empty.Hashed :=
  ⟨live_hashMakeTab _ _ _ _, rfl, rfl, Nat.zero_le _, fun _ hm => absurd hm (Nat.not_lt_zero _)⟩

/-- What matters of a key is that of the live symbols. -/
lemma live_congr {key key' : ℕ → StateKey} {t : HashTab ℕ StateKey} {live : List ℕ}
    (h : t.Live key live) (heq : ∀ n ∈ live, key' n = key n) : t.Live key' live := by
  have hchains : (fun i => live.filter (fun n => t.bucketOf key' n = i)) =
      fun i => live.filter (fun n => t.bucketOf key n = i) := by
    funext i
    refine List.filter_congr fun n hn => ?_
    unfold HashTab.bucketOf
    rw [heq n hn]
  refine ⟨?_, h.nodup, h.count, h.size⟩
  rw [hchains]
  exact h.holds

/-- The states change, but not the numbers of their items. -/
lemma Hashed.set (h : S.Hashed) (hn : A.nstates = S.nstates)
    (hkey : ∀ n < S.nstates, (A.state n).kernelItems.map Item.key = S.key n) :
    (S.set A).Hashed := by
  have heq : ∀ n ∈ (List.range S.nstates).reverse, (S.set A).key n = S.key n := fun n hmem =>
    hkey n (List.mem_range.mp (List.mem_reverse.mp hmem))
  refine ⟨?_, h.fpHash, h.fpCmp, hn.le.trans h.le, ?_⟩
  · change S.hashtab.Live (S.set A).key (List.range A.nstates).reverse
    rw [hn]
    exact live_congr h.live heq
  · intro m hm n hn' hmn
    have hm' : m < S.nstates := hn ▸ hm
    have hn'' : n < S.nstates := hn ▸ hn'
    refine h.distinct m hm' n hn'' ((hkey m hm').symm.trans (hmn.trans (hkey n hn'')))

/-- A change of the states that keeps their items keeps the hash table in step. -/
lemma Hashed.set_same (h : S.Hashed) (hn : A.nstates = S.nstates)
    (hstate : ∀ n, (A.state n).kernelItems = (S.state n).kernelItems) : (S.set A).Hashed :=
  h.set hn fun n _ => by rw [hstate n]; rfl

/-- The hash table finds the state that has the items, if there is one. -/
lemma Hashed.find (h : S.Hashed) (items : StateKey) : hashFindSym S.key S.hashtab items maxState =
    some ((List.range S.nstates).find? fun n => S.key n = items) := by
  have hhash : ∀ k k', S.hashtab.fpCmp k k' = 0 → S.hashtab.fpHash k = S.hashtab.fpHash k' := by
    intro k k' hcmp
    rw [h.fpCmp] at hcmp
    rw [stateCmp_eq_zero_iff.mp hcmp]
  rw [h.live.find hhash items (by rw [List.length_reverse, List.length_range]; exact h.le), h.fpCmp]
  refine congrArg some ?_
  have hpred :
      (fun n => decide (stateCmp items (S.key n) = 0)) = fun n => decide (S.key n = items) := by
    funext n
    rw [decide_eq_decide, stateCmp_eq_zero_iff]
    exact eq_comm
  rw [hpred]
  -- only one state can have the items, so it does not matter from which end the states are searched
  rcases hfind : (List.range S.nstates).find? fun n => S.key n = items with _ | n
  · rw [List.find?_eq_none] at hfind ⊢
    exact fun m hm => hfind m (List.mem_reverse.mp hm)
  · have hn := List.mem_range.mp (List.mem_of_find?_eq_some hfind)
    have hkey : S.key n = items := by simpa using List.find?_some hfind
    rcases hfind' : (List.range S.nstates).reverse.find? fun n => S.key n = items with _ | m
    · exact absurd (decide_eq_true hkey) (List.find?_eq_none.mp hfind' n (by simpa using hn))
    · have hm : m < S.nstates := by simpa using List.mem_of_find?_eq_some hfind'
      have hkey' : S.key m = items := by simpa using List.find?_some hfind'
      rw [h.distinct m hm n hn (hkey'.trans hkey.symm)]

/-- `newstate` finds or makes the same state with the hash table, and keeps the table. -/
lemma Hashed.newstate (h : S.Hashed) (items : List Item) :
    (S.newstate items).map (fun r => (r.1.toAutomaton, r.2)) = S.toAutomaton.newstate items ∧
      ∀ r, S.newstate items = some r → r.1.Hashed := by
  unfold StateTable.newstate Automaton.newstate
  by_cases hlarge : maxKernel < items.length
  · rw [if_pos hlarge, if_pos hlarge]
    exact ⟨rfl, fun r hr => absurd hr (by simp)⟩
  rw [if_neg hlarge, if_neg hlarge, h.find]
  have hpred : (fun n => decide (S.key n = items.map Item.key)) =
      fun n => decide ((S.state n).kernelItems.map Item.key = items.map Item.key) := rfl
  rw [hpred]
  rcases hfind : (List.range S.nstates).find? fun n =>
    (S.state n).kernelItems.map Item.key = items.map Item.key with _ | existing
  · dsimp only
    by_cases hmany : maxState ≤ S.nstates
    · rw [if_pos hmany, if_pos hmany]
      exact ⟨rfl, fun r hr => absurd hr (by simp)⟩
    rw [if_neg hmany, if_neg hmany]
    refine ⟨rfl, ?_⟩
    rintro r hr
    obtain rfl := Option.some.inj hr
    have hnew : ∀ n, (⟨S.addState items, S.hashtab⟩ : StateTable).key n =
        if n = S.nstates then items.map Item.key else S.key n := by
      intro n
      change ((Function.update S.state S.nstates _) n).kernelItems.map Item.key = _
      by_cases hn : n = S.nstates
      · subst hn
        rw [Function.update_self, if_pos rfl]
      · rw [Function.update_of_ne hn, if_neg hn]
        rfl
    have hlive :
        S.hashtab.Live (⟨S.addState items, S.hashtab⟩ : StateTable).key
        (List.range S.nstates).reverse := by
      refine live_congr h.live fun n hn => ?_
      rw [hnew, if_neg (Nat.ne_of_lt (List.mem_range.mp (List.mem_reverse.mp hn)))]
    have hadd := hlive.add (n := S.nstates) (by simp)
    have hsame : hashAddSym (⟨S.addState items, S.hashtab⟩ : StateTable).key S.hashtab S.nstates =
        hashAddSym (fun _ => items.map Item.key) S.hashtab S.nstates := by
      unfold hashAddSym
      rw [hnew, if_pos rfl]
    rw [hsame] at hadd
    refine ⟨?_, h.fpHash, h.fpCmp, by change S.nstates + 1 ≤ maxState; omega, ?_⟩
    · have hreverse :
          (List.range (S.nstates + 1)).reverse = S.nstates :: (List.range S.nstates).reverse := by
        rw [List.range_succ, List.reverse_append]
        rfl
      change HashTab.Live _ _ (List.range (S.nstates + 1)).reverse
      rw [hreverse]
      exact hadd
    · intro m hm n hn hmn
      change (⟨S.addState items, S.hashtab⟩ : StateTable).key m =
        (⟨S.addState items, S.hashtab⟩ : StateTable).key n at hmn
      rw [hnew, hnew] at hmn
      have hother : ∀ n < S.nstates, S.key n ≠ items.map Item.key := fun n hn hkey =>
        List.find?_eq_none.mp hfind n (List.mem_range.mpr hn) (decide_eq_true hkey)
      rcases Nat.lt_succ_iff_lt_or_eq.mp hm with
        hm | rfl <;> rcases Nat.lt_succ_iff_lt_or_eq.mp hn with hn | rfl
      · rw [if_neg hm.ne, if_neg hn.ne] at hmn
        exact h.distinct m hm n hn hmn
      · rw [if_neg hm.ne, if_pos rfl] at hmn
        exact absurd hmn (hother m hm)
      · rw [if_pos rfl, if_neg hn.ne] at hmn
        exact absurd hmn.symm (hother n hn)
      · rfl
  · refine ⟨rfl, ?_⟩
    rintro r hr
    obtain rfl := Option.some.inj hr
    exact h

/-! ## The loop -/

/-- The computation with the hash table does the same, and keeps the table. -/
def Refines (r : Option StateTable) (r' : Option Automaton) : Prop :=
  r.map toAutomaton = r' ∧ ∀ S, r = some S → S.Hashed

/-- One computation behind another refines what they refine. -/
lemma Refines.bind {r : Option StateTable} {r' : Option Automaton}
    {f : StateTable → Option StateTable} {f' : Automaton → Option Automaton} (h : Refines r r')
    (hf : ∀ S : StateTable, S.Hashed → Refines (f S) (f' S.toAutomaton)) :
    Refines (r.bind f) (r'.bind f') := by
  obtain ⟨rfl, hhashed⟩ := h
  rcases r with _ | S
  · exact ⟨rfl, fun S hS => absurd hS (by simp)⟩
  · exact hf S (hhashed S rfl)

/-- A loop over a list refines the loop of what its body refines. -/
lemma Refines.foldlM {β : Type} {f : StateTable → β → Option StateTable}
    {f' : Automaton → β → Option Automaton} (hf : ∀ (S : StateTable) b, S.Hashed →
    Refines (f S b) (f' S.toAutomaton b)) (l : List β) (h : S.Hashed) :
    Refines (l.foldlM f S) (l.foldlM f' S.toAutomaton) := by
  induction l generalizing S with
  | nil => exact ⟨rfl, fun S' hS' => Option.some.inj hS' ▸ h⟩
  | cons b l ih =>
    rw [List.foldlM_cons, List.foldlM_cons]
    exact (hf S b h).bind fun S' hS' => ih hS'

/-- A change of the states refines the change without the hash table. -/
lemma Refines.set {r : Option Automaton} (h : S.Hashed)
    (hr : ∀ A, r = some A → A.nstates = S.nstates ∧
    ∀ n < S.nstates, (A.state n).kernelItems.map Item.key = S.key n) : Refines (r.map S.set) r := by
  rcases r with _ | A
  · exact ⟨rfl, fun S' hS' => absurd hS' (by simp)⟩
  · refine ⟨rfl, fun S' hS' => ?_⟩
    obtain ⟨hn, hkey⟩ := hr A rfl
    exact Option.some.inj hS' ▸ h.set hn hkey

/-- A transition with the hash table refines a transition that searches the states. -/
lemma Hashed.transition (h : S.Hashed) (cur val : ℕ) (items : List Item) :
    Refines (S.transition cur val items) (S.toAutomaton.transition cur val items) := by
  obtain ⟨hnew, hhashed⟩ := h.newstate items
  unfold StateTable.transition Automaton.transition
  rw [← hnew]
  rcases hr : S.newstate items with _ | ⟨S₁, next, isnew⟩
  · exact ⟨rfl, fun S' hS' => absurd hS' (by simp)⟩
  have h₁ : S₁.Hashed := hhashed _ hr
  change Refines (if isnew = .new then _ else _) (if isnew = .new then _ else _)
  by_cases hisnew : isnew = .new
  · rw [if_pos hisnew, if_pos hisnew]
    refine Refines.set h₁ fun A hA => ?_
    rw [Automaton.addUnfinished_eq hA]
    exact ⟨Automaton.nstates_link .., fun n _ => by rw [Automaton.state_link]; rfl⟩
  rw [if_neg hisnew, if_neg hisnew]
  rcases hmerge : mergeLookaheads ((S₁.link cur val next).state next).kernelItems items with
    _ | ⟨kernel, didSomething⟩
  · exact ⟨rfl, fun S' hS' => absurd hS' (by simp)⟩
  have hkey :
      ∀ n, (((S₁.link cur val next).setKernel next kernel).state n).kernelItems.map Item.key =
        S₁.key n := by
    intro n
    change (Function.update (S₁.link cur val next).state next _ n).kernelItems.map Item.key = _
    by_cases hn : n = next
    · subst hn
      rw [Function.update_self]
      refine (key_mergeLookaheads hmerge).trans ?_
      rw [Automaton.state_link]
      rfl
    · rw [Function.update_of_ne hn, Automaton.state_link]
      rfl
  have hn : ((S₁.link cur val next).setKernel next kernel).nstates = S₁.nstates :=
    Automaton.nstates_link ..
  change Refines (if didSomething = true then _ else _) (if didSomething = true then _ else _)
  by_cases hdid : didSomething = true
  · rw [if_pos hdid, if_pos hdid]
    refine Refines.set h₁ fun A hA => ?_
    rw [Automaton.addUnfinished_eq hA]
    exact ⟨hn, fun n _ => hkey n⟩
  · rw [if_neg hdid, if_neg hdid]
    exact ⟨rfl, fun S' hS' => Option.some.inj hS' ▸ h₁.set hn fun n _ => hkey n⟩

end StateTable

namespace Grammar

open StateTable

variable {G : Grammar} {F : SetTable} {S : StateTable}

/-- A visit with the hash table refines a visit that searches the states. -/
lemma refines_hashedVisit (h : S.Hashed) (fuel cur : ℕ) :
    Refines (G.hashedVisit F fuel S cur) (G.visit F fuel S.toAutomaton cur) := by
  unfold hashedVisit visit
  rcases G.closure F fuel (S.state cur).kernelItems with _ | items
  · exact ⟨rfl, fun S' hS' => absurd hS' (by simp)⟩
  change Refines ((kclosure (S.state cur).kernelItems items).bind _)
    ((kclosure (S.state cur).kernelItems items).bind _)
  rcases kclosure (S.state cur).kernelItems items with _ | items
  · exact ⟨rfl, fun S' hS' => absurd hS' (by simp)⟩
  change Refines ((moveEps (S.state cur).epsilonItems (sortItems items)).bind _)
    ((moveEps (S.state cur).epsilonItems (sortItems items)).bind _)
  rcases moveEps (S.state cur).epsilonItems (sortItems items) with _ | ⟨eps, rest⟩
  · exact ⟨rfl, fun S' hS' => absurd hS' (by simp)⟩
  have hsame : ∀ (B : Automaton) (x : LrState) n, x.kernelItems = (B.state cur).kernelItems →
      ((Function.update B.state cur x) n).kernelItems = (B.state n).kernelItems := by
    intro B x n hx
    by_cases hn : n = cur
    · subst hn
      rw [Function.update_self, hx]
    · rw [Function.update_of_ne hn]
  have hstart : (S.set (S.setEpsilon cur eps)).Hashed := h.set_same rfl fun n => hsame _ _ n rfl
  refine Refines.bind (Refines.foldlM (fun S' g hS' => hS'.transition cur g.1 _) _ hstart)
    fun S' hS' => ?_
  exact ⟨rfl, fun S₁ hS₁ => Option.some.inj hS₁ ▸ hS'.set_same rfl fun n => hsame _ _ n rfl⟩

/-- The loop of `lr` with the hash table refines the loop that searches the states. -/
lemma refines_hashedLoop (h : S.Hashed) (fuel n : ℕ) :
    Refines (G.hashedLoop F fuel n S) (G.lrLoop F fuel n S.toAutomaton) := by
  induction n generalizing S with
  | zero => exact ⟨rfl, fun S' hS' => absurd hS' (by simp [hashedLoop])⟩
  | succ n ih =>
    unfold hashedLoop lrLoop
    rcases hget : S.getUnfinished with _ | ⟨cur, A⟩
    · exact ⟨rfl, fun S' hS' => Option.some.inj hS' ▸ h⟩
    · have hA : A = { S.toAutomaton with unfinished := S.unfinished.erase cur } := by
        obtain ⟨m, -, hm⟩ := Option.map_eq_some_iff.mp hget
        obtain ⟨rfl, rfl⟩ := Prod.mk.inj hm
        rfl
      have hS : (S.set A).Hashed := by
        subst hA
        exact h.set_same rfl fun _ => rfl
      exact (refines_hashedVisit hS fuel cur).bind fun S' hS' => ih hS'

/-- The initial state with the hash table is the initial state. -/
lemma refines_hashedStart : Refines G.hashedStart G.startState := by
  unfold hashedStart startState
  rcases G.productions G.goalSymbol with _ | ⟨startProd, _ | ⟨p, ps⟩⟩
  · exact ⟨rfl, fun S' hS' => absurd hS' (by simp)⟩
  · obtain ⟨hnew, hhashed⟩ := hashed_empty.newstate [⟨startProd, 0, {eoi}⟩]
    dsimp only
    rw [show StateTable.empty.toAutomaton = Automaton.empty from rfl] at hnew
    rw [← hnew]
    rcases hr : StateTable.empty.newstate [⟨startProd, 0, {eoi}⟩] with _ | ⟨S₁, next, isnew⟩
    · exact ⟨rfl, fun S' hS' => absurd hS' (by simp)⟩
    · refine Refines.set (hhashed _ hr) fun A hA => ?_
      rw [Automaton.addUnfinished_eq hA]
      exact ⟨rfl, fun n _ => rfl⟩
  · exact ⟨rfl, fun S' hS' => absurd hS' (by simp)⟩

/-- `lr` with its hash table builds the same machine as with a search through all states, and at its
end the table has every state under its items. -/
theorem hashedLr_eq (G : Grammar) (F : SetTable) (fuel : ℕ) :
    (G.hashedLr F fuel).map StateTable.toAutomaton = G.lr F fuel ∧ ∀ S, G.hashedLr F fuel = some S →
    ∀ n < S.nstates, hashFindSym S.key S.hashtab (S.key n) maxState = some (some n) := by
  obtain ⟨heq, hhashed⟩ : Refines (G.hashedLr F fuel) (G.lr F fuel) :=
    refines_hashedStart.bind fun S hS => refines_hashedLoop hS fuel fuel
  refine ⟨heq, fun S hS n hn => ?_⟩
  have h := hhashed S hS
  rw [h.find]
  rcases hfind : (List.range S.nstates).find? fun m => S.key m = S.key n with _ | m
  · exact absurd (decide_eq_true rfl) (List.find?_eq_none.mp hfind n (List.mem_range.mpr hn))
  · have hm := List.mem_range.mp (List.mem_of_find?_eq_some hfind)
    rw [h.distinct m hm n hn (by simpa using List.find?_some hfind)]

end Grammar

end Parser
