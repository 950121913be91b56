import Cgkits.Support.Hash
import Mathlib.Data.List.TakeWhile

/-!
# Symbols with equal keys (`hash_next_sym`)

`hash_next_sym` is to return the symbol behind a given one that has the same key.  It goes along the
chain and compares each symbol with the one behind it, not with the given one.  So it stops at the
first two neighbours with equal keys, and it passes over a symbol with the key of the given one if
another key stands in front of it.

`hashNextSym_iff` says for which symbols the answer is right, and for which keys `hash_find_sym` and
`hash_next_sym` enumerate the symbols.
-/

namespace Support

open Links

section Functions

variable {α K : Type} (key : α → K)

/-- `hash_next_sym`: follow the chain behind the symbol to the next one with an equal key. -/
def hashNextSym (t : HashTab α K) : ℕ → α → Option (Option α)
  | 0, _ => none
  | fuel + 1, last =>
    match t.cell (.next last) with
    | none => some none
    | some next =>
      if t.fpCmp (key last) (key next) = 0 then some (some next) else hashNextSym t fuel next

/-- A symbol, and those that repeated calls of `hash_next_sym` return. -/
def nextAll (t : HashTab α K) (fuel : ℕ) : ℕ → Option α → Option (List α)
  | _, none => some []
  | 0, some _ => none
  | n + 1, some sym => do
    let next ← hashNextSym key t fuel sym
    let syms ← nextAll t fuel n next
    some (sym :: syms)

/-- `hash_find_sym`, and then repeated calls of `hash_next_sym`. -/
def findAll (t : HashTab α K) (k : K) (fuel : ℕ) : Option (List α) := do
  let first ← hashFindSym key t k fuel
  nextAll key t fuel fuel first

end Functions

/-! ## Neighbours -/

section Neighbours

variable {α : Type} (R : α → α → Prop) [DecidableRel R]

/-- The second one of the first two neighbours that are related. -/
def firstNeighbour : α → List α → Option α
  | _, [] => none
  | s, n :: l => if R s n then some n else firstNeighbour n l

/-- The next element is related to `s`, or none is, and no two neighbours are related. -/
def NextToEach (s : α) (l : List α) : Prop :=
  (∃ n ∈ l.head?, R s n) ∨ ((∀ n ∈ l, ¬ R s n) ∧ l.IsChain fun a b => ¬ R a b)

variable (P : α → Prop) [DecidablePred P] in
/-- The elements with the property stand together, and behind them no two neighbours are related. -/
def Together (l : List α) : Prop :=
  (∀ n ∈ (l.dropWhile fun n => ¬ P n).dropWhile fun n => P n, ¬ P n) ∧
    ((l.dropWhile fun n => ¬ P n).dropWhile fun n => P n).IsChain fun a b => ¬ R a b

variable {R} {s n : α} {l : List α}

/-- There is no next symbol exactly when no neighbours in the list are related. -/
lemma firstNeighbour_eq_none_iff : firstNeighbour R s l = none ↔
    (s :: l).IsChain fun a b => ¬ R a b := by
  induction l generalizing s with
  | nil => simp [firstNeighbour]
  | cons n l ih =>
    unfold firstNeighbour
    rw [List.isChain_cons_cons]
    by_cases hn : R s n
    · rw [if_pos hn]
      exact iff_of_false (Option.some_ne_none n) fun h => h.1 hn
    · rw [if_neg hn, ih, and_iff_right hn]

/-- A neighbour that is found is an element of the list. -/
lemma firstNeighbour_mem (h : firstNeighbour R s l = some n) : n ∈ l := by
  induction l generalizing s with
  | nil => cases h
  | cons a l ih =>
    unfold firstNeighbour at h
    by_cases ha : R s a
    · rw [if_pos ha] at h
      cases h
      exact List.mem_cons_self
    · rw [if_neg ha] at h
      exact List.mem_cons_of_mem a (ih h)

/-- Behind an element that is not related to `s`, the search for neighbours and the search for an
element that is related to `s` never end at the same element. -/
lemma firstNeighbour_eq_find (hR : Equivalence R) (hnodup : (n :: l).Nodup) (hn : ¬ R s n)
    (h : firstNeighbour R n l = l.find? (R s ·)) : firstNeighbour R n l = none ∧
    ∀ a ∈ l, ¬ R s a := by
  induction l generalizing n with
  | nil => exact ⟨rfl, fun a ha => absurd ha List.not_mem_nil⟩
  | cons a l ih =>
    obtain ⟨-, hal⟩ := List.nodup_cons.mp hnodup
    unfold firstNeighbour at h ⊢
    by_cases hna : R n a
    · -- `a` is the neighbour, and it is not related to `s`
      have hsa : ¬ R s a := fun hsa => hn (hR.trans hsa (hR.symm hna))
      rw [if_pos hna, List.find?_cons_of_neg (by simpa using hsa)] at h
      exact absurd (List.mem_of_find?_eq_some h.symm) (List.nodup_cons.mp hal).1
    · rw [if_neg hna] at h ⊢
      by_cases hsa : R s a
      · rw [List.find?_cons_of_pos (by simpa using hsa)] at h
        exact absurd (firstNeighbour_mem h) (List.nodup_cons.mp hal).1
      · rw [List.find?_cons_of_neg (by simpa using hsa)] at h
        obtain ⟨hnone, hall⟩ := ih hal hsa h
        refine ⟨hnone, fun b hb => ?_⟩
        rcases List.mem_cons.mp hb with rfl | hb
        · exact hsa
        · exact hall b hb

/-- The two searches find the same symbol exactly when each related symbol stands next to the one
before. -/
lemma firstNeighbour_eq_find_iff (hR : Equivalence R) (hnodup : l.Nodup) :
    firstNeighbour R s l = l.find? (R s ·) ↔ NextToEach R s l := by
  unfold NextToEach
  rcases l with _ | ⟨n, l⟩
  · exact iff_of_true rfl (.inr ⟨fun n hn => absurd hn List.not_mem_nil, .nil⟩)
  · unfold firstNeighbour
    by_cases hn : R s n
    · rw [if_pos hn, List.find?_cons_of_pos (by simpa using hn)]
      exact iff_of_true rfl (.inl ⟨n, rfl, hn⟩)
    · have hhead : ¬ ∃ a ∈ (n :: l).head?, R s a := by
        rintro ⟨a, ha, hsa⟩
        cases ha
        exact hn hsa
      rw [if_neg hn, List.find?_cons_of_neg (by simpa using hn), or_iff_right hhead]
      constructor
      · intro h
        obtain ⟨hnone, hall⟩ := firstNeighbour_eq_find hR hnodup hn h
        refine ⟨fun a ha => ?_, firstNeighbour_eq_none_iff.mp hnone⟩
        rcases List.mem_cons.mp ha with rfl | ha
        · exact hn
        · exact hall a ha
      · rintro ⟨hall, hchain⟩
        rw [firstNeighbour_eq_none_iff.mpr hchain, eq_comm, List.find?_eq_none]
        intro a ha
        simpa using hall a (List.mem_cons_of_mem n ha)

end Neighbours

/-! ## The chains -/

section Chains

variable {α K : Type} {key : α → K} {t : HashTab α K} {live : List α} {s : α} {l : List α}

/-- The keys of two symbols compare as equal. -/
def HashTab.SameKey (t : HashTab α K) (key : α → K) (a b : α) : Prop := t.fpCmp (key a) (key b) = 0

/-- Whether two keys compare as equal can be tested. -/
instance (t : HashTab α K) (key : α → K) : DecidableRel (t.SameKey key) :=
  fun a b => inferInstanceAs (Decidable (t.fpCmp (key a) (key b) = 0))

/-- The contract of the functions of a table: to have no difference is an equivalence, and equal
keys are hashed alike. -/
structure Contract (fpHash : K → ℕ) (fpCmp : K → K → ℤ) : Prop where
  /-- Keys that compare equal form classes. -/
  equiv : Equivalence fun k k' => fpCmp k k' = 0
  /-- Keys that compare equal have the same hash value. -/
  hash : ∀ k k', fpCmp k k' = 0 → fpHash k = fpHash k'

/-- `hash_next_sym` looks for neighbours in the rest of the chain. -/
lemma hashNextSym_eq (h : IsChain t.toMem (.next s) l) {fuel : ℕ} (hfuel : l.length < fuel) :
    hashNextSym key t fuel s = some (firstNeighbour (t.SameKey key) s l) := by
  induction l generalizing s fuel with
  | nil =>
    obtain ⟨fuel, rfl⟩ := Nat.exists_eq_add_of_lt hfuel
    unfold hashNextSym
    rw [show t.cell (.next s) = none from h]
    rfl
  | cons n l ih =>
    obtain ⟨hcell, -, hrest⟩ := h
    rw [List.length_cons] at hfuel
    obtain ⟨fuel, rfl⟩ := Nat.exists_eq_add_of_lt (Nat.lt_of_le_of_lt (Nat.zero_le _) hfuel)
    rw [Nat.zero_add] at hfuel ⊢
    unfold hashNextSym firstNeighbour
    rw [hcell]
    by_cases heq : t.SameKey key s n
    · rw [if_pos heq]
      exact if_pos heq
    · have hnext := ih hrest (show l.length < fuel by omega)
      rw [if_neg heq, ← hnext]
      exact if_neg heq

/-- `hash_next_sym` is right for a symbol if and only if the symbols of its chain that were added
before it are in a suitable order. -/
lemma HashTab.Live.next (h : t.Live key live) (hc : Contract t.fpHash t.fpCmp)
    {newer older : List α} (hlive : live = newer ++ s :: older) {fuel : ℕ}
    (hfuel : live.length ≤ fuel) :
    hashNextSym key t fuel s = some (older.find? fun n => t.fpCmp (key s) (key n) = 0) ↔
      NextToEach (t.SameKey key) s (older.filter fun n => t.bucketOf key n = t.bucketOf key s) := by
  have hchain := h.holds.chain (t.bucketOf key s)
  have hbucket : live.filter (fun n => t.bucketOf key n = t.bucketOf key s) =
      newer.filter (fun n => t.bucketOf key n = t.bucketOf key s) ++
        s :: older.filter (fun n => t.bucketOf key n = t.bucketOf key s) := by
    rw [hlive, List.filter_append, List.filter_cons_of_pos (by simp)]
  have hnodup : (older.filter fun n => t.bucketOf key n = t.bucketOf key s).Nodup := by
    have hlivenodup := h.nodup
    rw [hlive] at hlivenodup
    exact (List.nodup_cons.mp (List.nodup_append.mp hlivenodup).2.1).2.filter _
  have hshort : (older.filter fun n => t.bucketOf key n = t.bucketOf key s).length < fuel := by
    have hle := List.length_filter_le (fun n => decide (t.bucketOf key n = t.bucketOf key s)) older
    rw [hlive, List.length_append, List.length_cons] at hfuel
    omega
  rw [hbucket] at hchain
  rw [hashNextSym_eq hchain.of_append hshort, Option.some.injEq, ← find_filter_bucket hc.hash
    (key s)]
  have hR : Equivalence (t.SameKey key) :=
    ⟨fun a => hc.equiv.refl (key a), fun h => hc.equiv.symm h, fun h h' => hc.equiv.trans h h'⟩
  exact firstNeighbour_eq_find_iff hR hnodup

/-- The first of the symbols that a client comes to is the one that it starts with. -/
lemma head?_nextAll {fuel n : ℕ} {syms : List α} (h : nextAll key t fuel n (some s) = some syms) :
    syms.head? = some s := by
  cases n with
  | zero => cases h
  | succ n =>
    unfold nextAll at h
    obtain ⟨next, -, h⟩ := Option.bind_eq_some_iff.mp h
    obtain ⟨rest, -, h⟩ := Option.bind_eq_some_iff.mp h
    cases h
    rfl

section Enumeration

variable {P : α → Prop} [DecidablePred P]

/-- From a symbol on, all symbols with its key are returned if and only if they stand together. -/
lemma nextAll_iff (hR : Equivalence (t.SameKey key)) (hP : ∀ a b, P a → (t.SameKey key a b ↔ P b))
    (hs : P s) (hchain : IsChain t.toMem (.next s) l) (hnodup : l.Nodup) {fuel n : ℕ}
    (hfuel : l.length < fuel) (hn : l.length < n) :
    nextAll key t fuel n (some s) = some ((s :: l).filter fun n => P n) ↔
      (∀ a ∈ l.dropWhile fun n => P n, ¬ P a) ∧ (l.dropWhile fun n => P n).IsChain fun a b =>
        ¬ t.SameKey key a b := by
  induction l generalizing s n with
  | nil =>
    obtain ⟨n, rfl⟩ := Nat.exists_eq_add_of_lt hn
    rw [List.length_nil, Nat.zero_add]
    refine iff_of_true ?_ ⟨fun a ha => absurd ha List.not_mem_nil, .nil⟩
    unfold nextAll
    rw [hashNextSym_eq hchain hfuel, List.filter_cons_of_pos (by simpa using hs)]
    cases n <;> rfl
  | cons a l ih =>
    obtain ⟨-, hal⟩ := List.nodup_cons.mp hnodup
    have hlen : (a :: l).length = l.length + 1 := rfl
    obtain ⟨n, rfl⟩ : ∃ m, n = m + 1 := ⟨n - 1, by omega⟩
    have hstep : nextAll key t fuel (n + 1) (some s) = some ((s :: a :: l).filter fun n => P n) ↔
        nextAll key t fuel n (firstNeighbour (t.SameKey key) s (a :: l)) =
        some ((a :: l).filter fun n => P n) := by
      have hrun : nextAll key t fuel (n + 1) (some s) =
          (nextAll key t fuel n (firstNeighbour (t.SameKey key) s (a :: l))).map fun syms =>
            s :: syms := by
        rw [nextAll, hashNextSym_eq hchain hfuel]
        change (nextAll key t fuel n (firstNeighbour (t.SameKey key) s (a :: l))).bind _ = _
        cases nextAll key t fuel n (firstNeighbour (t.SameKey key) s (a :: l)) <;> rfl
      rw [hrun, List.filter_cons_of_pos (by simpa using hs)]
      cases nextAll key t fuel n (firstNeighbour (t.SameKey key) s (a :: l)) <;> simp
    rw [hstep]
    unfold firstNeighbour
    by_cases ha : P a
    · rw [if_pos ((hP s a hs).mpr ha), List.dropWhile_cons_of_pos (by simpa using ha)]
      exact ih ha hchain.2.2 hal (by omega) (by omega)
    · have hsa : ¬ t.SameKey key s a := fun hsa => ha ((hP s a hs).mp hsa)
      rw [if_neg hsa, List.dropWhile_cons_of_neg (by simpa using ha), List.filter_cons_of_neg
        (by simpa using ha)]
      rcases hx : firstNeighbour (t.SameKey key) a l with _ | x
      · -- the enumeration ends
        have hend : nextAll key t fuel n none = some (l.filter fun n => P n) ↔ ∀ b ∈ l, ¬ P b := by
          rw [show nextAll key t fuel n none =
            some [] by cases n <;> rfl, Option.some.injEq, eq_comm, List.filter_eq_nil_iff]
          simp
        rw [hend, and_iff_left (firstNeighbour_eq_none_iff.mp hx), List.forall_mem_cons,
          and_iff_right ha]
      · -- it goes on with a symbol that has another key, or that is not the next one
        refine iff_of_false (fun hall => ?_) fun h => ?_
        · have hhead := head?_nextAll hall
          rw [List.head?_filter] at hhead
          have hfind : l.find? (t.SameKey key s ·) = l.find? fun n => P n :=
            congrArg (List.find? · l) (funext fun b => decide_eq_decide.mpr (hP s b hs))
          have hnone := (firstNeighbour_eq_find hR hnodup hsa (by rw [hfind, hhead, hx])).1
          rw [hx] at hnone
          cases hnone
        · rw [firstNeighbour_eq_none_iff.mpr h.2] at hx
          cases hx

/-- All symbols with a key are enumerated if and only if they stand together in their chain. -/
lemma HashTab.Live.enumerate (h : t.Live key live) (hc : Contract t.fpHash t.fpCmp) (k : K)
    {fuel : ℕ} (hfuel : live.length ≤ fuel) :
    findAll key t k fuel = some (live.filter fun n => t.fpCmp k (key n) = 0) ↔
      Together (t.SameKey key) (fun n => t.fpCmp k (key n) = 0)
        (live.filter fun n => t.bucketOf key n = t.fpHash k % t.maxSize) := by
  have hR : Equivalence (t.SameKey key) :=
    ⟨fun a => hc.equiv.refl (key a), fun h => hc.equiv.symm h, fun h h' => hc.equiv.trans h h'⟩
  have hP : ∀ a b, t.fpCmp k (key a) = 0 → (t.SameKey key a b ↔ t.fpCmp k (key b) = 0) :=
    fun a b ha =>
    ⟨fun hab => hc.equiv.trans ha hab, fun hb => hc.equiv.trans (hc.equiv.symm ha) hb⟩
  have hchain := h.holds.chain (t.fpHash k % t.maxSize)
  obtain ⟨chain, hdef⟩ : ∃ c, c = live.filter fun n => t.bucketOf key n = t.fpHash k % t.maxSize :=
    ⟨_, rfl⟩
  have hnodup : chain.Nodup := hdef ▸ h.nodup.filter _
  have hlen : chain.length ≤ fuel := by
    rw [hdef]
    exact (List.length_filter_le _ live).trans hfuel
  have hfilter : live.filter (fun n => t.fpCmp k (key n) = 0) = chain.filter fun n =>
    t.fpCmp k (key n) = 0 := by
    rw [hdef, List.filter_filter]
    refine List.filter_congr fun n _ => ?_
    rw [Bool.eq_iff_iff, Bool.and_eq_true, decide_eq_true_iff, decide_eq_true_iff]
    refine ⟨fun hn => ⟨hn, ?_⟩, fun hn => hn.1⟩
    unfold HashTab.bucketOf
    rw [hc.hash k (key n) hn]
  have hfind :
      findAll key t k fuel = nextAll key t fuel fuel (chain.find? fun n => t.fpCmp k (key n) =
      0) := by
    unfold findAll
    rw [h.find hc.hash k hfuel, hdef, find_filter_bucket hc.hash]
    rfl
  rw [← hdef] at hchain
  rw [hfind, hfilter, ← hdef]
  unfold Together
  rcases hfirst : chain.find? fun n => t.fpCmp k (key n) = 0 with _ | s
  · rw [List.find?_eq_none] at hfirst
    have hnone : ∀ n ∈ chain, decide ¬ t.fpCmp k (key n) = 0 = true :=
      fun n hn => by simpa using hfirst n hn
    rw [List.dropWhile_eq_nil_iff.mpr hnone, List.filter_eq_nil_iff.mpr hfirst]
    exact iff_of_true (by cases fuel <;> rfl) ⟨fun a ha => absurd ha List.not_mem_nil, .nil⟩
  · obtain ⟨hs, pre, l, rfl, hpre⟩ := List.find?_eq_some_iff_append.mp hfirst
    have hs' : t.fpCmp k (key s) = 0 := of_decide_eq_true hs
    have hdrop : (pre ++ s :: l).dropWhile (fun n => decide ¬ t.fpCmp k (key n) = 0) = s :: l := by
      rw [List.dropWhile_append_of_pos
        fun a ha => by simpa using hpre a ha, List.dropWhile_cons_of_neg (by simpa using hs')]
    have hkeep : (pre ++ s :: l).filter (fun n => t.fpCmp k (key n) = 0) =
        (s :: l).filter fun n => t.fpCmp k (key n) = 0 := by
      rw [List.filter_append, List.filter_eq_nil_iff.mpr
        fun a ha => by simpa using hpre a ha, List.nil_append]
    rw [List.length_append, List.length_cons] at hlen
    have hdrop' : (s :: l).dropWhile (fun n => decide (t.fpCmp k (key n) = 0)) =
        l.dropWhile fun n => decide (t.fpCmp k (key n) = 0) := List.dropWhile_cons_of_pos hs
    rw [hdrop, hkeep]
    dsimp only
    rw [hdrop']
    exact nextAll_iff hR hP hs' hchain.of_append
      (List.nodup_cons.mp (List.nodup_append.mp hnodup).2.1).2 (by omega) (by omega)

end Enumeration

end Chains

/-! ## The table -/

section Table

variable {α K : Type} [DecidableEq α] {key : α → K}

/-- After every sequence of calls, `hash_next_sym` finds the next symbol with an equal key, and
`hash_find_sym` with `hash_next_sym` all symbols with a key, if and only if the symbols are in a
suitable order in their chain. -/
theorem hashNextSym_iff (maxSym : ℕ) (fpHash : K → ℕ) (fpCmp : K → K → ℤ)
    (hc : Contract fpHash fpCmp) (calls : List (HashCall α)) (live : List α)
    (hcalls : calls.foldlM HashCall.denote [] = some live) : ∃ t, calls.foldlM (HashCall.exec key)
    (hashMakeTab maxSym fpHash fpCmp) = some t ∧
      (∀ (newer older : List α) (s : α) (fuel : ℕ), live = newer ++ s :: older →
      live.length ≤ fuel →
        (hashNextSym key t fuel s = some (older.find? fun n => fpCmp (key s) (key n) = 0) ↔
          NextToEach (t.SameKey key) s (older.filter fun n => t.bucketOf key n =
          t.bucketOf key s))) ∧
      ∀ (k : K) (fuel : ℕ), live.length ≤ fuel →
        (findAll key t k fuel = some (live.filter fun n => fpCmp k (key n) = 0) ↔
          Together (t.SameKey key) (fun n => fpCmp k (key n) = 0)
            (live.filter fun n => t.bucketOf key n = fpHash k % t.maxSize)) := by
  obtain ⟨t, hrun, hlive, -, hhash', hcmp⟩ := (live_hashMakeTab key maxSym fpHash fpCmp).exec hcalls
  have hcmp' : t.fpCmp = fpCmp := hcmp
  have hhash'' : t.fpHash = fpHash := hhash'
  subst hcmp' hhash''
  exact ⟨t, hrun, fun newer older s fuel heq hfuel => hlive.next hc heq hfuel,
    fun k fuel hfuel => hlive.enumerate hc k hfuel⟩

/-- The difference of the last digits of two numbers, as a comparison of keys. -/
def cmpMod (k k' : ℕ) : ℤ := (k % 10 : ℕ) - (k' % 10 : ℕ)

/-- The comparison by the last digit keeps the contract with the hash function that is the last
digit. -/
lemma contract_mod : Contract (fun k : ℕ => k % 10) cmpMod := by
  have hiff : ∀ k k', cmpMod k k' = 0 ↔ k % 10 = k' % 10 := fun k k' =>
    Int.sub_eq_zero.trans Int.ofNat_inj
  refine ⟨⟨fun k => (hiff k k).mpr rfl, fun h => ?_, fun h h' => ?_⟩, fun k k' h =>
    (hiff k k').mp h⟩
  · exact (hiff _ _).mpr ((hiff _ _).mp h).symm
  · exact (hiff _ _).mpr (((hiff _ _).mp h).trans ((hiff _ _).mp h'))

/-- Symbols that are their own keys, in one chain; `7` and `17` have equal keys, and nothing stands
between them. -/
theorem hashNextSym_iff_mod : ∃ t, [.add 8, .add 7, .add 17].foldlM (HashCall.exec id)
      (hashMakeTab 1 (· % 10) cmpMod) = some t ∧
    (∀ (newer older : List ℕ) (s fuel : ℕ), [17, 7, 8] = newer ++ s :: older →
    [17, 7, 8].length ≤ fuel →
      (hashNextSym id t fuel s = some (older.find? fun n => cmpMod (id s) (id n) = 0) ↔
        NextToEach (t.SameKey id) s (older.filter fun n => t.bucketOf id n = t.bucketOf id s))) ∧
    ∀ k fuel : ℕ, [17, 7, 8].length ≤ fuel →
      (findAll id t k fuel = some ([17, 7, 8].filter fun n => cmpMod k (id n) = 0) ↔
        Together (t.SameKey id) (fun n => cmpMod k (id n) = 0)
          ([17, 7, 8].filter fun n => t.bucketOf id n = k % 10 % t.maxSize)) :=
  hashNextSym_iff 1 (· % 10) cmpMod contract_mod [.add 8, .add 7, .add 17] [17, 7, 8] (by decide)

/-- Behind `17`, the symbols `18` and `8` have equal keys: `hash_next_sym` returns `8`. -/
theorem not_hashNextSym_find : ¬ ∀ (calls : List (HashCall ℕ)) (live : List ℕ) (t : HashTab ℕ ℕ),
    calls.foldlM HashCall.denote [] = some live →
    calls.foldlM (HashCall.exec id) (hashMakeTab 1 (· % 10) cmpMod) = some t →
    ∀ (newer older : List ℕ) (s fuel : ℕ), live = newer ++ s :: older → live.length ≤ fuel →
      hashNextSym id t fuel s = some (older.find? fun n => cmpMod (id s) (id n) = 0) := by
  intro hall
  have hanswer :
      ([.add 8, .add 18, .add 17].foldlM (HashCall.exec id) (hashMakeTab 1 (· % 10) cmpMod)).bind
      (fun t => hashNextSym id t 3 17) = some (some 8) := by decide
  obtain ⟨t, hrun, hnext⟩ := Option.bind_eq_some_iff.mp hanswer
  have hfind :=
    hall [.add 8, .add 18, .add 17] [17, 18, 8] t (by decide) hrun [] [18, 8] 17 3 rfl le_rfl
  rw [hnext] at hfind
  exact absurd hfind (by decide)

end Table

end Support
