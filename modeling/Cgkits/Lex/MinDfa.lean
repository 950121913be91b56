import Cgkits.Lex.Dfa
import Mathlib.Data.Finset.Sort
import Mathlib.Data.Finset.Card
import Mathlib.Logic.Function.Basic

/-!
# DFA minimization (`mindfa.c`)

`minimize` partitions the states into groups, first by their accept strings, and then splits groups
until a whole pass splits none.  A group is compared with its first member only, the members that
differ are moved to a new group at the end of the array that the pass runs over, and `_ingroup`
changes while the group is being scanned.  `fixDtran` builds the new table from the first member of
every group.

Every write into `_groups` and `_ingroup` checks its index and makes the model fail outside the
arrays.  The invariant `Partition` says that the groups are nonempty, disjoint and cover the states,
so there are at most as many groups as states, and one less while a group still has two members: no
write fails.  A pass that creates no group has changed nothing, so each member of a group agrees
with the first one (`Stable`), and the new table simulates the old one.
-/

namespace Lex

/-- `_groups`, `_ngroups` and `_ingroup`: the groups of states and the group of each state. -/
structure Groups where
  /-- Groups of equivalent states. -/
  groups : ℕ → Finset ℕ
  /-- The number of groups made so far. -/
  ngroups : ℕ
  /-- The group of each state, by its number. -/
  ingroup : ℕ → ℕ

/-- Write into an array of `DFA_MAX` elements; outside the array there is no result. -/
def write {α : Type*} (a : ℕ → α) (i : ℕ) (x : α) : Option (ℕ → α) :=
  if i < dfaMax then some (Function.update a i x) else none

/-- The inner loop of `init_groups`: the last state before `j` with the accept string of `i`. -/
def sameAccept (accept : ℕ → Accept) (i : ℕ) : ℕ → Option ℕ
  | 0 => none
  | j + 1 => if (accept i).string = (accept j).string then some j else sameAccept accept i j

/-- What `init_groups` does for the state `i`: join a group with its accept string or open one. -/
def initState (accept : ℕ → Accept) (st : Groups) (i : ℕ) : Option Groups :=
  match sameAccept accept i i with
  | some j => do
    let groups ← write st.groups (st.ingroup j) (insert i (st.groups (st.ingroup j)))
    let ingroup ← write st.ingroup i (st.ingroup j)
    some { st with groups := groups, ingroup := ingroup }
  | none => do
    let groups ← write st.groups st.ngroups {i}
    let ingroup ← write st.ingroup i st.ngroups
    some ⟨groups, st.ngroups + 1, ingroup⟩

/-- `init_groups`: states with one accept string are in one group. -/
def initGroups (nstates : ℕ) (accept : ℕ → Accept) : Option Groups :=
  (List.range nstates).foldlM (initState accept) ⟨fun _ => ∅, 0, fun _ => 0⟩

/-- The test for two members of a group: on some character they go to different groups, or only one
of them fails. -/
def differ (dtran : ℕ → Row) (ingroup : ℕ → ℕ) (first next : ℕ) : Bool :=
  (List.finRange maxChars).reverse.any fun c =>
    dtran first c ≠ dtran next c ∧ (dtran first c = fail ∨ dtran next c = fail ∨
      ingroup (dtran first c).toNat ≠ ingroup (dtran next c).toNat)

/-- The visit of the member `next` of the group `current`: it goes to the new group when it differs
from `first`. -/
def splitMember (dtran : ℕ → Row) (current first : ℕ) (st : Groups) (next : ℕ) : Option Groups :=
  if differ dtran st.ingroup first next then do
    let groups ← write st.groups current ((st.groups current).erase next)
    let groups ← write groups st.ngroups (insert next (groups st.ngroups))
    let ingroup ← write st.ingroup next st.ngroups
    some ⟨groups, st.ngroups, ingroup⟩
  else some st

/-- The visit of the group `current`.  The members are visited in increasing order; removing the
member just visited does not disturb the order. -/
def splitGroup (dtran : ℕ → Row) (current : ℕ) (st : Groups) : Option Groups :=
  match (st.groups current).sort (· ≤ ·) with
  | [] => some st
  | [_] => some st
  | first :: rest => do
    let groups ← write st.groups st.ngroups ∅
    let st ← rest.foldlM (splitMember dtran current first) { st with groups := groups }
    some (if st.groups st.ngroups ≠ ∅ then { st with ngroups := st.ngroups + 1 } else st)

/-- One pass over the groups from `current` on.  The pass also visits the groups that it creates. -/
def minPass (dtran : ℕ → Row) : ℕ → ℕ → Groups → Option Groups
  | 0, _, _ => none
  | fuel + 1, current, st =>
    if current < st.ngroups then do
      let st ← splitGroup dtran current st
      minPass dtran fuel (current + 1) st
    else some st

/-- The passes of `minimize`, until one creates no group. -/
def minLoop (dtran : ℕ → Row) : ℕ → Groups → Option Groups
  | 0, _ => none
  | fuel + 1, st => do
    let st' ← minPass dtran (dfaMax + 1) 0 st
    if st.ngroups ≠ st'.ngroups then minLoop dtran fuel st' else some st'

/-- The first member of a group, whose row stands for the group. -/
def Groups.first (st : Groups) (g : ℕ) : ℕ := (((st.groups g).sort (· ≤ ·)).head?).getD 0

/-- `fix_dtran`: the row of a group in the new table, made from that of its first member. -/
def fixRow (dtran : ℕ → Row) (st : Groups) (g : ℕ) : Row := fun c =>
  if dtran (st.first g) c = fail then fail else st.ingroup (dtran (st.first g) c).toNat

/-- The groups that `minimize` ends with, if no write has left its array. -/
def minGroups (d : Dfa) : Option Groups := do
  let st ← initGroups d.nstates d.accept
  minLoop d.dtran (dfaMax + 1) st

/-- `minimize`: the new table, the new accept array, and the number of groups. -/
def minimize (d : Dfa) : Option ((ℕ → Row) × (ℕ → Accept) × ℕ) := do
  let st ← minGroups d
  some (fixRow d.dtran st, fun g => d.accept (st.first g), st.ngroups)

/-! ## Partitions -/

/-- The groups are a partition of the states below `n` into groups of states with one accept string,
and the start state is in the first group. -/
structure Partition (n : ℕ) (accept : ℕ → Accept) (st : Groups) : Prop where
  /-- Every state has a group that exists. -/
  ingroup_lt : ∀ s < n, st.ingroup s < st.ngroups
  /-- `_ingroup` is the inverse of `_groups`. -/
  mem_iff : ∀ g < st.ngroups, ∀ s, s ∈ st.groups g ↔ s < n ∧ st.ingroup s = g
  /-- No group that exists is empty. -/
  nonempty : ∀ g < st.ngroups, (st.groups g).Nonempty
  /-- The members of a group have one accept string. -/
  string_eq : ∀ g < st.ngroups, ∀ s ∈ st.groups g, ∀ t ∈ st.groups g,
    (accept s).string = (accept t).string
  /-- The start state is in the first group. -/
  zero : st.ingroup 0 = 0

/-- A write inside the array is done and gives the new array. -/
lemma write_of_lt {α : Type*} {a : ℕ → α} {i : ℕ} {x : α} (h : i < dfaMax) :
    write a i x = some (Function.update a i x) := if_pos h

section Count

variable {n : ℕ} {accept : ℕ → Accept} {st : Groups}

/-- There are at most as many groups as states, since no group is empty. -/
lemma Partition.ngroups_le (h : Partition n accept st) : st.ngroups ≤ n := by
  have hsub : Finset.range st.ngroups ⊆ (Finset.range n).image st.ingroup := by
    intro g hg
    rw [Finset.mem_range] at hg
    obtain ⟨s, hs⟩ := h.nonempty g hg
    obtain ⟨hsn, hsg⟩ := (h.mem_iff g hg s).mp hs
    exact Finset.mem_image.mpr ⟨s, Finset.mem_range.mpr hsn, hsg⟩
  calc st.ngroups = (Finset.range st.ngroups).card := (Finset.card_range _).symm
    _ ≤ ((Finset.range n).image st.ingroup).card := Finset.card_le_card hsub
    _ ≤ (Finset.range n).card := Finset.card_image_le
    _ = n := Finset.card_range n

/-- There are fewer groups than states when a group has two members. -/
lemma Partition.ngroups_lt (h : Partition n accept st) {g s t : ℕ} (hg : g < st.ngroups)
    (hs : s ∈ st.groups g) (ht : t ∈ st.groups g) (hst : s ≠ t) : st.ngroups < n := by
  obtain ⟨hsn, hsg⟩ := (h.mem_iff g hg s).mp hs
  obtain ⟨htn, htg⟩ := (h.mem_iff g hg t).mp ht
  have hsub : Finset.range st.ngroups ⊆ ((Finset.range n).erase t).image st.ingroup := by
    intro k hk
    rw [Finset.mem_range] at hk
    obtain ⟨r, hr⟩ := h.nonempty k hk
    obtain ⟨hrn, hrk⟩ := (h.mem_iff k hk r).mp hr
    by_cases hrt : r = t
    · subst hrt
      refine Finset.mem_image.mpr ⟨s, ?_, by rw [hsg, ← htg, hrk]⟩
      exact Finset.mem_erase.mpr ⟨hst, Finset.mem_range.mpr hsn⟩
    · exact Finset.mem_image.mpr ⟨r, Finset.mem_erase.mpr ⟨hrt, Finset.mem_range.mpr hrn⟩, hrk⟩
  have hcard : ((Finset.range n).erase t).card = n - 1 := by
    rw [Finset.card_erase_of_mem (Finset.mem_range.mpr htn), Finset.card_range]
  have : st.ngroups ≤ n - 1 := by
    calc st.ngroups = (Finset.range st.ngroups).card := (Finset.card_range _).symm
      _ ≤ (((Finset.range n).erase t).image st.ingroup).card := Finset.card_le_card hsub
      _ ≤ ((Finset.range n).erase t).card := Finset.card_image_le
      _ = n - 1 := hcard
  omega

/-- The first member of a group is its least one. -/
lemma Partition.first_mem (h : Partition n accept st) {g : ℕ} (hg : g < st.ngroups) :
    st.first g ∈ st.groups g ∧ ∀ s ∈ st.groups g, st.first g ≤ s := by
  obtain ⟨r, hr⟩ := h.nonempty g hg
  have hsorted := Finset.sortedLT_sort (st.groups g)
  rcases hl : (st.groups g).sort (· ≤ ·) with _ | ⟨x, l⟩
  · have := (Finset.mem_sort (· ≤ ·)).mpr hr
    rw [hl] at this
    simp at this
  · have hfirst : st.first g = x := by simp [Groups.first, hl]
    rw [hl] at hsorted
    have hmem : ∀ s, s ∈ st.groups g ↔ s ∈ x :: l := by
      intro s
      rw [← hl, Finset.mem_sort]
    rw [hfirst]
    refine ⟨(hmem x).mpr (by simp), fun s hs => ?_⟩
    rcases List.mem_cons.mp ((hmem s).mp hs) with rfl | hs
    · exact le_rfl
    · exact (List.rel_of_pairwise_cons hsorted.pairwise hs).le

end Count

/-! ## The initial groups -/

section Init

variable {accept : ℕ → Accept}

/-- The inner loop of `init_groups` finds an earlier state with the same accept string. -/
lemma sameAccept_some {i j k : ℕ} (h : sameAccept accept i j = some k) :
    k < j ∧ (accept i).string = (accept k).string := by
  induction j with
  | zero => simp [sameAccept] at h
  | succ j ih =>
    rw [sameAccept] at h
    split at h
    · obtain rfl := Option.some.inj h
      exact ⟨Nat.lt_succ_self j, ‹_›⟩
    · obtain ⟨hk, hs⟩ := ih h
      exact ⟨by omega, hs⟩

/-- A state joins the group of an earlier state with its accept string. -/
lemma Partition.join {i j : ℕ} {st : Groups} (h : Partition i accept st) (hj : j < i)
    (hstring : (accept i).string = (accept j).string) :
    Partition (i + 1) accept
      ⟨Function.update st.groups (st.ingroup j) (insert i (st.groups (st.ingroup j))), st.ngroups,
        Function.update st.ingroup i (st.ingroup j)⟩ := by
  have hjg := h.ingroup_lt j hj
  have hjmem := (h.mem_iff _ hjg j).mpr ⟨hj, rfl⟩
  have hmem : ∀ g < st.ngroups, ∀ s,
      s ∈ Function.update st.groups (st.ingroup j) (insert i (st.groups (st.ingroup j))) g ↔
        s ∈ st.groups g ∨ (s = i ∧ g = st.ingroup j) := by
    intro g _ s
    by_cases hgj : g = st.ingroup j
    · subst hgj
      simp [or_comm]
    · simp [hgj]
  refine ⟨fun s hs => ?_, fun g hg s => ?_, fun g hg => ?_, fun g hg s hs t ht => ?_, ?_⟩
  · by_cases hsi : s = i
    · subst hsi
      simpa using hjg
    · simp only [Function.update_of_ne hsi]
      exact h.ingroup_lt s (by omega)
  · rw [hmem g hg, h.mem_iff g hg]
    by_cases hsi : s = i
    · subst hsi
      simp [eq_comm]
    · simp only [hsi, false_and, or_false, Function.update_of_ne hsi]
      exact and_congr_left' (by omega)
  · obtain ⟨s, hs⟩ := h.nonempty g hg
    exact ⟨s, (hmem g hg s).mpr (Or.inl hs)⟩
  · have hone : ∀ r ∈ Function.update st.groups (st.ingroup j)
        (insert i (st.groups (st.ingroup j))) g,
        ∃ q ∈ st.groups g, (accept r).string = (accept q).string := by
      intro r hr
      rcases (hmem g hg r).mp hr with hr | ⟨rfl, rfl⟩
      · exact ⟨r, hr, rfl⟩
      · exact ⟨j, hjmem, hstring⟩
    obtain ⟨s', hs', hseq⟩ := hone s hs
    obtain ⟨t', ht', hteq⟩ := hone t ht
    rw [hseq, hteq]
    exact h.string_eq g hg s' hs' t' ht'
  · have hi : 0 ≠ i := by omega
    simp only [Function.update_of_ne hi]
    exact h.zero

/-- A state with a new accept string opens a group of its own. -/
lemma Partition.open {i : ℕ} {st : Groups} (h : Partition i accept st) :
    Partition (i + 1) accept ⟨Function.update st.groups st.ngroups {i}, st.ngroups + 1,
      Function.update st.ingroup i st.ngroups⟩ := by
  have hmem : ∀ g < st.ngroups + 1, ∀ s, s ∈ Function.update st.groups st.ngroups {i} g ↔
      (g < st.ngroups ∧ s ∈ st.groups g) ∨ (s = i ∧ g = st.ngroups) := by
    intro g hg s
    by_cases hgn : g = st.ngroups
    · subst hgn
      simp
    · have : g < st.ngroups := by omega
      simp [hgn, this]
  refine ⟨fun s hs => ?_, fun g hg s => ?_, fun g hg => ?_, fun g hg s hs t ht => ?_, ?_⟩
  · by_cases hsi : s = i
    · subst hsi
      simp
    · simp only [Function.update_of_ne hsi]
      exact (h.ingroup_lt s (by omega)).trans (Nat.lt_succ_self _)
  · rw [hmem g hg]
    by_cases hsi : s = i
    · subst hsi
      have : ¬ (g < st.ngroups ∧ s ∈ st.groups g) := by
        rintro ⟨hg', hs⟩
        exact absurd ((h.mem_iff g hg' s).mp hs).1 (Nat.lt_irrefl s)
      simp [this, eq_comm]
    · simp only [hsi, false_and, or_false, Function.update_of_ne hsi]
      constructor
      · rintro ⟨hg', hs⟩
        obtain ⟨hsn, hsg⟩ := (h.mem_iff g hg' s).mp hs
        exact ⟨by omega, hsg⟩
      · rintro ⟨hsn, rfl⟩
        have hlt := h.ingroup_lt s (by omega)
        exact ⟨hlt, (h.mem_iff _ hlt s).mpr ⟨by omega, rfl⟩⟩
  · by_cases hgn : g = st.ngroups
    · exact ⟨i, (hmem g hg i).mpr (Or.inr ⟨rfl, hgn⟩)⟩
    · have hg' : g < st.ngroups := Nat.lt_of_le_of_ne (Nat.lt_succ_iff.mp hg) hgn
      obtain ⟨s, hs⟩ := h.nonempty g hg'
      exact ⟨s, (hmem g hg s).mpr (Or.inl ⟨hg', hs⟩)⟩
  · rcases (hmem g hg s).mp hs with ⟨hg', hs⟩ | ⟨rfl, rfl⟩
    · rcases (hmem g hg t).mp ht with ⟨-, ht⟩ | ⟨-, rfl⟩
      · exact h.string_eq g hg' s hs t ht
      · omega
    · rcases (hmem _ hg t).mp ht with ⟨hg', -⟩ | ⟨rfl, -⟩
      · omega
      · rfl
  · by_cases hi : i = 0
    · subst hi
      have := h.ngroups_le
      simp only [Function.update_self]
      omega
    · simp only [Function.update_of_ne (Ne.symm hi)]
      exact h.zero

/-- `init_groups` leaves a partition of the states by their accept strings. -/
lemma exists_initGroups (accept : ℕ → Accept) {n : ℕ} (hn : n ≤ dfaMax) :
    ∃ st, initGroups n accept = some st ∧ Partition n accept st := by
  unfold initGroups
  induction n with
  | zero =>
    exact ⟨_, rfl, ⟨fun s hs => absurd hs (Nat.not_lt_zero s),
      fun g hg => absurd hg (Nat.not_lt_zero g), fun g hg => absurd hg (Nat.not_lt_zero g),
      fun g hg => absurd hg (Nat.not_lt_zero g), rfl⟩⟩
  | succ i ih =>
    obtain ⟨st, hst, hpart⟩ := ih (by omega)
    have hle := hpart.ngroups_le
    rw [List.range_succ, List.foldlM_append, hst]
    simp only [Option.bind_eq_bind, Option.bind_some, List.foldlM_cons, List.foldlM_nil]
    unfold initState
    rcases hsame : sameAccept accept i i with _ | j
    · refine ⟨_, ?_, hpart.open⟩
      simp [write_of_lt (show st.ngroups < dfaMax by omega), write_of_lt (show i < dfaMax by omega)]
    · obtain ⟨hj, hstring⟩ := sameAccept_some hsame
      have hlt := hpart.ingroup_lt j hj
      refine ⟨_, ?_, hpart.join hj hstring⟩
      simp [write_of_lt (show st.ingroup j < dfaMax by omega),
        write_of_lt (show i < dfaMax by omega)]

end Init

/-! ## Splitting a group -/

section Split

variable {n : ℕ} {dtran : ℕ → Row} {accept : ℕ → Accept} {st : Groups}

/-- No member of the group differs from the first one. -/
def Stable (dtran : ℕ → Row) (st : Groups) (g : ℕ) : Prop :=
  ∀ s ∈ st.groups g, differ dtran st.ingroup (st.first g) s = false

/-- The groups are the same, whatever lies behind the last one. -/
structure Unchanged (st st' : Groups) : Prop where
  /-- The number of groups has not changed. -/
  ngroups_eq : st'.ngroups = st.ngroups
  /-- The groups of the states. -/
  ingroup_eq : st'.ingroup = st.ingroup
  /-- The groups are what they were. -/
  groups_eq : ∀ g < st.ngroups, st'.groups g = st.groups g

/-- The groups are unchanged when nothing is done. -/
lemma Unchanged.refl (st : Groups) : Unchanged st st := ⟨rfl, rfl, fun _ _ => rfl⟩

/-- When two passes change nothing, nothing has been changed by both. -/
lemma Unchanged.trans {a b c : Groups} (hab : Unchanged a b) (hbc : Unchanged b c) :
    Unchanged a c where
  ngroups_eq := hbc.ngroups_eq.trans hab.ngroups_eq
  ingroup_eq := hbc.ingroup_eq.trans hab.ingroup_eq
  groups_eq g hg := (hbc.groups_eq g (by rw [hab.ngroups_eq]; exact hg)).trans (hab.groups_eq g hg)

/-- A partition that is not changed stays a partition. -/
lemma Unchanged.partition {st' : Groups} (hu : Unchanged st st') (h : Partition n accept st) :
    Partition n accept st' := by
  obtain ⟨hn, hin, hgr⟩ := hu
  refine ⟨fun s hs => ?_, fun g hg s => ?_, fun g hg => ?_, fun g hg s hs t ht => ?_, ?_⟩
  · rw [hn, hin]
    exact h.ingroup_lt s hs
  · rw [hn] at hg
    rw [hgr g hg, hin]
    exact h.mem_iff g hg s
  · rw [hn] at hg
    rw [hgr g hg]
    exact h.nonempty g hg
  · rw [hn] at hg
    rw [hgr g hg] at hs ht
    exact h.string_eq g hg s hs t ht
  · rw [hin]
    exact h.zero

/-- A group is stable after a pass that changes nothing exactly when it was stable before. -/
lemma Unchanged.stable_iff {st' : Groups} (hu : Unchanged st st') {g : ℕ} (hg : g < st.ngroups) :
    Stable dtran st' g ↔ Stable dtran st g := by
  simp only [Stable, Groups.first, hu.groups_eq g hg, hu.ingroup_eq]

/-- The state while the group `current` is scanned and the members `D` have been moved to the new
group. -/
def Groups.moved (st : Groups) (current : ℕ) (D : Finset ℕ) : Groups where
  groups g := if g = st.ngroups then D
    else if g = current then st.groups current \ D else st.groups g
  ngroups := st.ngroups
  ingroup s := if s ∈ D then st.ngroups else st.ingroup s

/-- The new group is empty before a member is moved to it. -/
lemma Groups.moved_empty (st : Groups) (current : ℕ) :
    { st with groups := Function.update st.groups st.ngroups ∅ } = st.moved current ∅ := by
  simp only [Groups.moved, Finset.notMem_empty, if_false, Finset.sdiff_empty, Groups.mk.injEq,
    and_true]
  funext g
  by_cases hgn : g = st.ngroups
  · simp [hgn]
  · by_cases hgc : g = current
    · subst hgc
      simp [hgn]
    · simp [hgn, hgc]

/-- A state never differs from itself, whatever the groups are. -/
@[simp] lemma differ_self (ingroup : ℕ → ℕ) (s : ℕ) : differ dtran ingroup s s = false := by
  simp [differ]

/-- Moving one more member of a group to the new one keeps the groups in order. -/
lemma splitMember_moved {current first next : ℕ} {D : Finset ℕ} (hcur : current < st.ngroups)
    (hn : st.ngroups < dfaMax) (hnext : next < dfaMax) :
    splitMember dtran current first (st.moved current D) next =
      some (if differ dtran (st.moved current D).ingroup first next then
        st.moved current (insert next D) else st.moved current D) := by
  have hne : current ≠ st.ngroups := by omega
  unfold splitMember
  split
  · rw [write_of_lt (show current < dfaMax by omega)]
    simp only [Option.bind_eq_bind, Option.bind_some]
    rw [write_of_lt (show (st.moved current D).ngroups < dfaMax from hn)]
    simp only [Option.bind_some]
    rw [write_of_lt hnext]
    simp only [Option.bind_some, Option.some.injEq, Groups.moved, Groups.mk.injEq, true_and]
    constructor
    · funext g
      by_cases hgn : g = st.ngroups
      · subst hgn
        simp [Function.update_of_ne hne.symm]
      · by_cases hgc : g = current
        · subst hgc
          simp only [Function.update_of_ne hne, Function.update_self, if_neg hne, if_true]
          ext s
          simp only [Finset.mem_erase, Finset.mem_sdiff, Finset.mem_insert, not_or]
          tauto
        · simp [hgn, hgc]
    · funext s
      by_cases hs : s = next
      · subst hs
        simp
      · simp [hs]
  · rfl

/-- The scan of a group moves some of its members, and if it moves none, no member differs. -/
lemma exists_foldlM_splitMember (dtran : ℕ → Row) {current : ℕ} (first : ℕ) (rest : List ℕ)
    (hcur : current < st.ngroups) (hn : st.ngroups < dfaMax) (hrest : ∀ s ∈ rest, s < dfaMax)
    (hnd : rest.Nodup) {D : Finset ℕ} (hD : ∀ s ∈ rest, s ∉ D) :
    ∃ D', rest.foldlM (splitMember dtran current first) (st.moved current D) =
        some (st.moved current D') ∧ D ⊆ D' ∧ (∀ s ∈ D', s ∈ D ∨ s ∈ rest) ∧
      (D' = D → ∀ s ∈ rest, differ dtran (st.moved current D).ingroup first s = false) := by
  induction rest generalizing D with
  | nil => exact ⟨D, rfl, subset_rfl, fun s hs => Or.inl hs, fun _ s hs => by simp at hs⟩
  | cons x rest ih =>
    rw [List.nodup_cons] at hnd
    have hrest' : ∀ s ∈ rest, s < dfaMax := fun s hs => hrest s (by simp [hs])
    rw [List.foldlM_cons, splitMember_moved hcur hn (hrest x (by simp))]
    simp only [Option.bind_eq_bind, Option.bind_some]
    by_cases hdiff : differ dtran (st.moved current D).ingroup first x = true
    · rw [if_pos hdiff]
      obtain ⟨D', hfold, hsub, hmem, -⟩ := ih hrest' hnd.2 (D := insert x D) (by
        intro s hs hsD
        rcases Finset.mem_insert.mp hsD with rfl | hsD
        · exact hnd.1 hs
        · exact hD s (by simp [hs]) hsD)
      refine ⟨D', hfold, (Finset.subset_insert x D).trans hsub, fun s hs => ?_, fun heq => ?_⟩
      · rcases hmem s hs with hs | hs
        · rcases Finset.mem_insert.mp hs with rfl | hs
          · exact Or.inr (by simp)
          · exact Or.inl hs
        · exact Or.inr (by simp [hs])
      · exact absurd (heq ▸ hsub (Finset.mem_insert_self x D)) (hD x (by simp))
    · rw [if_neg hdiff]
      obtain ⟨D', hfold, hsub, hmem, hstable⟩ := ih hrest' hnd.2 (fun s hs => hD s (by simp [hs]))
      refine ⟨D', hfold, hsub, fun s hs => ?_, fun heq s hs => ?_⟩
      · rcases hmem s hs with hs | hs
        · exact Or.inl hs
        · exact Or.inr (by simp [hs])
      · rcases List.mem_cons.mp hs with rfl | hs
        · simpa using hdiff
        · exact hstable heq s hs

/-- Moving a nonempty part of a group, but not its first member, to a new group keeps the
partition. -/
lemma Partition.moved (h : Partition n accept st) {current : ℕ} (hcur : current < st.ngroups)
    {D : Finset ℕ} (hD : ∀ s ∈ D, s ∈ st.groups current) (hfirst : st.first current ∉ D)
    (hne : D.Nonempty) :
    Partition n accept { st.moved current D with ngroups := st.ngroups + 1 } := by
  have hcn : current ≠ st.ngroups := by omega
  have hfmem := (h.first_mem hcur).1
  have hgroup : ∀ g < st.ngroups, ∀ s, s ∈ (st.moved current D).groups g ↔ s ∈ st.groups g ∧
      s ∉ D := by
    intro g hg s
    have hgn : g ≠ st.ngroups := by omega
    simp only [Groups.moved, if_neg hgn]
    by_cases hgc : g = current
    · subst hgc
      simp
    · simp only [if_neg hgc]
      refine ⟨fun hs => ⟨hs, fun hsD => hgc ?_⟩, And.left⟩
      rw [← ((h.mem_iff g hg s).mp hs).2, ← ((h.mem_iff current hcur s).mp (hD s hsD)).2]
  have hnew : (st.moved current D).groups st.ngroups = D := by simp [Groups.moved]
  refine ⟨fun s hs => ?_, fun g hg s => ?_, fun g hg => ?_, fun g hg s hs t ht => ?_, ?_⟩
  · have hlt := h.ingroup_lt s hs
    simp only [Groups.moved]
    split <;> omega
  · by_cases hgn : g = st.ngroups
    · subst hgn
      simp only [hnew]
      simp only [Groups.moved]
      constructor
      · intro hs
        exact ⟨((h.mem_iff current hcur s).mp (hD s hs)).1, if_pos hs⟩
      · rintro ⟨hsn, hs⟩
        by_contra hsD
        rw [if_neg hsD] at hs
        have := h.ingroup_lt s hsn
        omega
    · have hg' : g < st.ngroups := Nat.lt_of_le_of_ne (Nat.lt_succ_iff.mp hg) hgn
      simp only [hgroup g hg', h.mem_iff g hg']
      simp only [Groups.moved]
      by_cases hsD : s ∈ D
      · simp [hsD, Ne.symm hgn]
      · simp [hsD]
  · by_cases hgn : g = st.ngroups
    · subst hgn
      simpa only [hnew] using hne
    · have hg' : g < st.ngroups := Nat.lt_of_le_of_ne (Nat.lt_succ_iff.mp hg) hgn
      by_cases hgc : g = current
      · subst hgc
        exact ⟨_, (hgroup g hg' _).mpr ⟨hfmem, hfirst⟩⟩
      · obtain ⟨s, hs⟩ := h.nonempty g hg'
        refine ⟨s, (hgroup g hg' s).mpr ⟨hs, fun hsD => hgc ?_⟩⟩
        rw [← ((h.mem_iff g hg' s).mp hs).2, ← ((h.mem_iff current hcur s).mp (hD s hsD)).2]
  · by_cases hgn : g = st.ngroups
    · subst hgn
      simp only [hnew] at hs ht
      exact h.string_eq current hcur s (hD s hs) t (hD t ht)
    · have hg' : g < st.ngroups := Nat.lt_of_le_of_ne (Nat.lt_succ_iff.mp hg) hgn
      exact h.string_eq g hg' s ((hgroup g hg' s).mp hs).1 t ((hgroup g hg' t).mp ht).1
  · have h0 : (0 : ℕ) ∉ D := by
      intro h0
      have hmem := hD 0 h0
      have hc0 : st.first current = 0 :=
        Nat.le_zero.mp ((h.first_mem hcur).2 0 hmem)
      exact hfirst (hc0 ▸ h0)
    simp only [Groups.moved, if_neg h0]
    exact h.zero

/-- The visit of a group keeps the partition.  It creates a group, or it changes nothing and the
group is stable. -/
lemma exists_splitGroup (dtran : ℕ → Row) (h : Partition n accept st) (hn : n ≤ dfaMax)
    {current : ℕ} (hcur : current < st.ngroups) :
    ∃ st', splitGroup dtran current st = some st' ∧ Partition n accept st' ∧
      (st'.ngroups = st.ngroups + 1 ∨ (Unchanged st st' ∧ Stable dtran st current)) := by
  have hmem : ∀ s, s ∈ st.groups current ↔ s ∈ (st.groups current).sort (· ≤ ·) :=
    fun s => (Finset.mem_sort _).symm
  have hnd := Finset.sort_nodup (st.groups current) (· ≤ ·)
  unfold splitGroup
  rcases hl : (st.groups current).sort (· ≤ ·) with _ | ⟨x, _ | ⟨y, l⟩⟩
  · exact ⟨st, rfl, h, Or.inr ⟨.refl st, fun s hs => by simp [hmem, hl] at hs⟩⟩
  · refine ⟨st, rfl, h, Or.inr ⟨.refl st, fun s hs => ?_⟩⟩
    have hfirst : st.first current = x := by simp [Groups.first, hl]
    rw [hmem, hl, List.mem_singleton] at hs
    rw [hfirst, hs, differ_self]
  · have hfirst : st.first current = x := by simp [Groups.first, hl]
    rw [hl, List.nodup_cons] at hnd
    have hx : x ∈ st.groups current := by simp [hmem, hl]
    have hrest : ∀ s ∈ y :: l, s ∈ st.groups current := fun s hs => by
      rw [hmem, hl]
      exact List.mem_cons_of_mem x hs
    have hxy : x ≠ y := fun hxy => hnd.1 (by simp [hxy])
    have hlt := h.ngroups_lt hcur hx (hrest y (by simp)) hxy
    have hbound : ∀ s ∈ y :: l, s < dfaMax := by
      intro s hs
      have := ((h.mem_iff current hcur s).mp (hrest s hs)).1
      omega
    have hstart := st.moved_empty current
    obtain ⟨D, hfold, -, hDmem, hstable⟩ := exists_foldlM_splitMember dtran x _
      (D := ∅) hcur (by omega) hbound hnd.2 (fun s _ => by simp)
    simp only [write_of_lt (show st.ngroups < dfaMax by omega), Option.bind_eq_bind,
      Option.bind_some, hstart, hfold]
    have hnew : (st.moved current D).groups (st.moved current D).ngroups = D := by
      simp [Groups.moved]
    rw [hnew]
    by_cases hDe : D = ∅
    · subst hDe
      have hun : Unchanged st (st.moved current ∅) := by
        rw [← hstart]
        exact ⟨rfl, rfl, fun g hg => Function.update_of_ne (by omega) _ _⟩
      refine ⟨_, by rw [if_neg (by simp)], hun.partition h, Or.inr ⟨hun, fun s hs => ?_⟩⟩
      rw [hfirst]
      rw [hmem, hl] at hs
      rcases List.mem_cons.mp hs with rfl | hs
      · exact differ_self _ _
      · have := hstable rfl s hs
        simpa [Groups.moved] using this
    · refine ⟨{ st.moved current D with ngroups := st.ngroups + 1 }, by rw [if_pos hDe]; rfl,
        h.moved hcur (fun s hs => ?_) ?_ (Finset.nonempty_iff_ne_empty.mpr hDe), Or.inl rfl⟩
      · rcases hDmem s hs with hs | hs
        · simp at hs
        · exact hrest s hs
      · rw [hfirst]
        intro hxD
        rcases hDmem x hxD with hs | hs
        · simp at hs
        · exact hnd.1 hs

end Split

/-! ## The passes -/

section Passes

variable {n : ℕ} {dtran : ℕ → Row} {accept : ℕ → Accept} {st : Groups}

/-- A pass keeps the partition.  It creates a group, or it changes nothing and every group that it
visits is stable. -/
lemma exists_minPass (dtran : ℕ → Row) (hn : n ≤ dfaMax) {fuel current : ℕ}
    (h : Partition n accept st) (hcur : current ≤ st.ngroups) (hfuel : n < fuel + current) :
    ∃ st', minPass dtran fuel current st = some st' ∧ Partition n accept st' ∧
      (st.ngroups < st'.ngroups ∨
        (Unchanged st st' ∧ ∀ g, current ≤ g → g < st.ngroups → Stable dtran st g)) := by
  induction fuel generalizing current st with
  | zero =>
    have := h.ngroups_le
    omega
  | succ fuel ih =>
    rw [minPass]
    by_cases hlt : current < st.ngroups
    · obtain ⟨st₁, hsplit, hpart₁, hcase₁⟩ := exists_splitGroup dtran h hn hlt
      have hle₁ : current + 1 ≤ st₁.ngroups := by
        rcases hcase₁ with hgrow | ⟨hun, -⟩
        · omega
        · rw [hun.ngroups_eq]
          exact hlt
      obtain ⟨st₂, hpass, hpart₂, hcase₂⟩ := ih hpart₁ hle₁ (by omega)
      refine ⟨st₂, by simp [hlt, hsplit, hpass], hpart₂, ?_⟩
      rcases hcase₁ with hgrow₁ | ⟨hun₁, hstable₁⟩
      · rcases hcase₂ with hgrow₂ | ⟨hun₂, -⟩
        · exact Or.inl (by omega)
        · exact Or.inl (by rw [hun₂.ngroups_eq]; omega)
      · rcases hcase₂ with hgrow₂ | ⟨hun₂, hstable₂⟩
        · exact Or.inl (by rw [← hun₁.ngroups_eq]; exact hgrow₂)
        · refine Or.inr ⟨hun₁.trans hun₂, fun g hg hgn => ?_⟩
          rcases Nat.eq_or_lt_of_le hg with rfl | hg
          · exact hstable₁
          · exact (hun₁.stable_iff hgn).mp (hstable₂ g hg (by rw [hun₁.ngroups_eq]; exact hgn))
    · rw [if_neg hlt]
      exact ⟨st, rfl, h, Or.inr ⟨.refl st, fun g hg hgn => absurd (hg.trans_lt hgn) hlt⟩⟩

/-- The passes end with a partition all of whose groups are stable. -/
lemma exists_minLoop (dtran : ℕ → Row) (hn : n ≤ dfaMax) {fuel : ℕ} (h : Partition n accept st)
    (hfuel : n < fuel + st.ngroups) :
    ∃ st', minLoop dtran fuel st = some st' ∧ Partition n accept st' ∧
      ∀ g < st'.ngroups, Stable dtran st' g := by
  induction fuel generalizing st with
  | zero =>
    have := h.ngroups_le
    omega
  | succ fuel ih =>
    obtain ⟨st₁, hpass, hpart₁, hcase⟩ :=
      exists_minPass dtran hn h (Nat.zero_le _) (show n < dfaMax + 1 + 0 by omega)
    rw [minLoop, hpass]
    simp only [Option.bind_eq_bind, Option.bind_some]
    rcases hcase with hgrow | ⟨hun, hstable⟩
    · rw [if_pos (by omega)]
      exact ih hpart₁ (by omega)
    · rw [if_neg (by simp [hun.ngroups_eq])]
      refine ⟨st₁, rfl, hpart₁, fun g hg => ?_⟩
      rw [hun.ngroups_eq] at hg
      exact (hun.stable_iff hg).mpr (hstable g (Nat.zero_le g) hg)

/-- `minimize` ends with a partition all of whose groups are stable, and no write leaves its
array. -/
lemma exists_minGroups (d : Dfa) :
    ∃ st, minGroups d = some st ∧ Partition d.nstates d.accept st ∧
      ∀ g < st.ngroups, Stable d.dtran st g := by
  obtain ⟨st, hinit, hpart⟩ := exists_initGroups d.accept d.le
  obtain ⟨st', hloop, h⟩ := exists_minLoop d.dtran d.le hpart
    (show d.nstates < dfaMax + 1 + st.ngroups by have := d.le; omega)
  exact ⟨st', by simp [minGroups, hinit, hloop], h⟩

end Passes

/-! ## The new table -/

section Simulation

variable {d : Dfa} {st : Groups}

/-- Two states that do not differ fail on the same characters and otherwise go to one group. -/
lemma of_differ_eq_false {dtran : ℕ → Row} {ingroup : ℕ → ℕ} {s t : ℕ}
    (h : differ dtran ingroup s t = false) (c : Fin maxChars) :
    (dtran s c = fail ↔ dtran t c = fail) ∧
      ingroup (dtran s c).toNat = ingroup (dtran t c).toNat := by
  have hc := List.any_eq_false.mp h c (List.mem_reverse.mpr (List.mem_finRange c))
  simp only [decide_eq_true_eq, not_and, not_or, not_not] at hc
  by_cases heq : dtran s c = dtran t c
  · simp [heq]
  · obtain ⟨hs, ht, hin⟩ := hc heq
    exact ⟨iff_of_false hs ht, hin⟩

/-- A row of the new table is the row of any member of the group, with groups for states. -/
lemma fixRow_eq (hpart : Partition d.nstates d.accept st)
    (hstable : ∀ g < st.ngroups, Stable d.dtran st g) {s : ℕ} (hs : s < d.nstates)
    (c : Fin maxChars) : fixRow d.dtran st (st.ingroup s) c =
      if d.dtran s c = fail then fail else st.ingroup (d.dtran s c).toNat := by
  have hg := hpart.ingroup_lt s hs
  have hmem := (hpart.mem_iff _ hg s).mpr ⟨hs, rfl⟩
  obtain ⟨hfail, hin⟩ := of_differ_eq_false (hstable _ hg s hmem) c
  unfold fixRow
  rw [hin]
  exact if_congr hfail rfl rfl

/-- The table that `fix_dtran` builds is a DFA with the groups as its states. -/
def fixDtran (d : Dfa) (st : Groups) (hpart : Partition d.nstates d.accept st) : Dfa where
  nstates := st.ngroups
  dtran := fixRow d.dtran st
  accept g := d.accept (st.first g)
  pos := (Nat.zero_le _).trans_lt (hpart.ingroup_lt 0 d.pos)
  le := hpart.ngroups_le.trans d.le
  entry g hg c := by
    have hfirst := ((hpart.mem_iff g hg _).mp (hpart.first_mem hg).1).1
    unfold fixRow
    rcases d.entry _ hfirst c with hfail | ⟨t, ht, htrans⟩
    · exact Or.inl (by rw [if_pos hfail])
    · refine Or.inr ⟨st.ingroup t, hpart.ingroup_lt t ht, ?_⟩
      rw [htrans, if_neg (natCast_ne_fail t), Int.toNat_natCast]

/-- The new table runs like the old one, with groups for states. -/
lemma runFrom_fixRow (hpart : Partition d.nstates d.accept st)
    (hstable : ∀ g < st.ngroups, Stable d.dtran st g) (w : List (Fin maxChars)) {s i : ℕ}
    (hs : s < d.nstates) :
    (∀ k, runFrom d.dtran s i w = .error k →
        runFrom (fixRow d.dtran st) (st.ingroup s) i w = .error k) ∧
      (∀ t, runFrom d.dtran s i w = .ok t → t < d.nstates ∧
        runFrom (fixRow d.dtran st) (st.ingroup s) i w = .ok (st.ingroup t)) := by
  induction w generalizing s i with
  | nil =>
    refine ⟨fun k h => by simp at h, fun t h => ?_⟩
    obtain rfl : s = t := by simpa using h
    exact ⟨hs, rfl⟩
  | cons c w ih =>
    have hrow := fixRow_eq hpart hstable hs c
    rcases d.entry s hs c with hfail | ⟨t, ht, htrans⟩
    · rw [if_pos hfail] at hrow
      rw [runFrom_cons_fail hfail, runFrom_cons_fail hrow]
      exact ⟨fun k h => h, fun t h => by simp at h⟩
    · rw [htrans, if_neg (natCast_ne_fail t), Int.toNat_natCast] at hrow
      rw [runFrom_cons htrans, runFrom_cons hrow]
      exact ih ht

/-- `minimize` terminates, all its writes are inside `_groups` and `_ingroup`, and it leaves a DFA
that fails on the same character of every string as the old one, or ends in a state with the same
accept string. -/
theorem minimize_run (d : Dfa) :
    ∃ d' : Dfa, minimize d = some (d'.dtran, d'.accept, d'.nstates) ∧
      ∀ w, (d'.run w).map (fun g => (d'.accept g).string) =
        (d.run w).map (fun s => (d.accept s).string) := by
  obtain ⟨st, hmin, hpart, hstable⟩ := exists_minGroups d
  refine ⟨fixDtran d st hpart, by simp [minimize, hmin, fixDtran], fun w => ?_⟩
  obtain ⟨herr, hok⟩ := runFrom_fixRow hpart hstable w (i := 0) d.pos
  rw [hpart.zero] at herr hok
  have hrun : (fixDtran d st hpart).run w = runFrom (fixRow d.dtran st) 0 0 w := rfl
  rcases hd : d.run w with k | t
  · rw [hrun, herr k hd]
    rfl
  · obtain ⟨htn, ht⟩ := hok t hd
    rw [hrun, ht]
    have hg := hpart.ingroup_lt t htn
    have hmem := (hpart.mem_iff _ hg t).mpr ⟨htn, rfl⟩
    have hstring := hpart.string_eq _ hg _ (hpart.first_mem hg).1 t hmem
    exact congrArg Except.ok hstring

end Simulation

end Lex
