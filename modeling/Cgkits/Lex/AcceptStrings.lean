import Cgkits.Lex.Nfa
import Cgkits.Lib.Region

/-!
# The accept strings (`nfa.c`)

`save` keeps the actions in a pool of `STR_MAX` bytes.  The cursor counts integers: the line number
is written at the cursor, and the action behind it, character by character; then the cursor is moved
behind the terminator, to the next integer.  An action `|` is not stored; its pointer is the one
that the next action gets.

The end of the pool is tested in front of each character of the action, but not in front of the line
number and not in front of the terminator.  `saves_accept_iff` says when this does no harm.
-/

namespace Lex

/-! ## The pool -/

/-- A byte of the pool, which keeps what was written to it as a character or as a part of an
integer. -/
inductive PoolByte
  /-- A byte that has not been written. -/
  | clear
  /-- A character of an action or the NUL behind it. -/
  | char (c : ℕ)
  /-- The byte `k` of an integer. -/
  | int (n : ℤ) (k : ℕ)
deriving DecidableEq

/-- `sizeof(int)`, the number of bytes of an integer on the machine. -/
def sizeofInt : ℕ := 4

/-- How `save` may fail: with its own error, or by a write outside the pool. -/
inductive SaveFault
  /-- `E_STRINGS`: there is no room for the action. -/
  | strings
  /-- A write outside the pool. -/
  | outside
deriving DecidableEq

/-- `strings` and `savep`, which is an index into it. -/
structure Pool where
  /-- `strings`, the memory that all actions share. -/
  strings : Region PoolByte
  /-- `savep`, the number of the next free `int`. -/
  savep : ℕ

/-- The pool that is allocated by the first call. -/
def Pool.init : Pool := ⟨⟨strMax, fun _ => .clear⟩, 0⟩

/-- The bytes of an integer, from the first one to the last one. -/
def intBytes (n : ℤ) : List PoolByte := (List.range sizeofInt).map (PoolByte.int n)

/-- A write that leaves the pool is a fault, any other one returns the pool. -/
def inPool (r : Option (Region PoolByte)) : Except SaveFault (Region PoolByte) :=
  r.elim (.error .outside) .ok

/-- The loop of `save`: `textp` afterwards, and the pool. -/
def copyStr : List ℕ → ℕ → Region PoolByte → Except SaveFault (ℕ × Region PoolByte)
  | [], textp, r => .ok (textp, r)
  | c :: str, textp, r =>
    if strMax - 1 ≤ textp then .error .strings
    else do
      let r ← inPool (r.write textp (.char c))
      copyStr str (textp + 1) r

/-- The number of integers that `len` bytes take up, rounded up. -/
def intsOf (len : ℕ) : ℕ := len / sizeofInt + if len % sizeofInt ≠ 0 then 1 else 0

/-- The part of `save` behind the loop: the terminator, and the cursor at the next integer. -/
def closeStr (savep textp : ℕ) (r : Region PoolByte) : Except SaveFault (ℕ × Pool) := do
  let r ← inPool (r.write textp (.char 0))
  let startp := sizeofInt * savep
  let len := textp + 1 - startp
  .ok (startp, ⟨r, savep + intsOf len⟩)

/-- `save`, with `g_actual_lineno`: the pointer that is returned, as an offset in the pool. -/
def Pool.save (lineno : ℤ) (str : List ℕ) (p : Pool) : Except SaveFault (ℕ × Pool) :=
  if str.head? = some 124 then .ok (sizeofInt * (p.savep + 1), p)
  else do
    let r ← inPool (Region.writeAll (intBytes lineno) (sizeofInt * p.savep) p.strings)
    let (textp, r) ← copyStr str (sizeofInt * (p.savep + 1)) r
    closeStr (p.savep + 1) textp r

/-- A call of `save`: the line number and the action that it finds. -/
structure SaveCall where
  /-- `g_actual_lineno`, the line number stored in front of the action. -/
  lineno : ℤ
  /-- The characters of the action, without the NUL. -/
  str : List ℕ

/-- The action starts with `|`, so that it is shared with the next rule and not stored. -/
def SaveCall.IsOr (c : SaveCall) : Prop := c.str.head? = some 124

instance (c : SaveCall) : Decidable c.IsOr := by unfold SaveCall.IsOr; infer_instance

/-- Calls of `save` one after the other: the pointers that are returned, and the pool. -/
def Pool.saves : List SaveCall → Pool → Except SaveFault (List ℕ × Pool)
  | [], p => .ok ([], p)
  | c :: calls, p => do
    let (startp, p) ← p.save c.lineno c.str
    let (startps, p) ← Pool.saves calls p
    .ok (startp :: startps, p)

/-! ## What a client relies on -/

/-- A copy of the action is at `startp`, and the line number is in front of it. -/
structure Pool.Stored (p : Pool) (startp : ℕ) (c : SaveCall) : Prop where
  /-- The line number is in front. -/
  le : sizeofInt ≤ startp
  /-- The line number stands in front of the action. -/
  lineno : p.strings.Holds (startp - sizeofInt) (intBytes c.lineno)
  /-- The action and its terminator. -/
  str : p.strings.Holds startp ((c.str ++ [0]).map PoolByte.char)
  /-- The terminator is in the pool. -/
  inside : startp + (c.str.length + 1) ≤ p.strings.size

/-- The calls keep the accept strings: no write is outside the pool, at the end each action is
stored where its call has said, and `|` has returned the pointer of the next action. -/
structure KeepsStrings (calls : List SaveCall) : Prop where
  /-- No write is outside the pool. -/
  inside : Pool.init.saves calls ≠ .error .outside
  /-- The actions are stored where the pointers say. -/
  stored : ∀ startps p, Pool.init.saves calls = .ok (startps, p) →
    ∀ (i : ℕ) c startp, calls[i]? = some c → ¬ c.IsOr → startps[i]? = some startp →
      p.Stored startp c
  /-- `|` returns the pointer of the next action. -/
  next : ∀ startps p, Pool.init.saves calls = .ok (startps, p) → ∀ (i j : ℕ) c, i < j →
    (∀ (k : ℕ) d, i ≤ k → k < j → calls[k]? = some d → d.IsOr) → calls[j]? = some c → ¬ c.IsOr →
    startps[i]? = startps[j]?

/-- The pool has room for the line number and a character: for the terminator, or for the one at
which the end of the pool is tested. -/
def Pool.HasRoom (p : Pool) (str : List ℕ) : Prop :=
  sizeofInt * p.savep + 8 ≤ strMax ∨ sizeofInt * p.savep + 4 = strMax ∧ str ≠ []

/-! ## One call -/

/-- The invariant of the pool: the cursor is in it, or at its end. -/
structure Pool.Ok (p : Pool) : Prop where
  /-- The pool has the size that the source gives it. -/
  size : p.strings.size = strMax
  /-- The cursor is not behind the end of the pool. -/
  savep_le : sizeofInt * p.savep ≤ strMax

/-- The pool that is allocated by the first call. -/
lemma Pool.ok_init : Pool.init.Ok := ⟨rfl, Nat.zero_le _⟩

/-- The characters of an action that fits are written, and the last one is not at the end of the
pool. -/
lemma copyStr_eq {str : List ℕ} {textp : ℕ} {r : Region PoolByte} (hsize : r.size = strMax)
    (h : str ≠ [] → textp + str.length < strMax) :
    ∃ r', Region.writeAll (str.map PoolByte.char) textp r = some r' ∧
      copyStr str textp r = .ok (textp + str.length, r') := by
  induction str generalizing textp r with
  | nil => exact ⟨r, rfl, rfl⟩
  | cons c str ih =>
    have hlt : textp + (str.length + 1) < strMax := h (List.cons_ne_nil _ _)
    have hwrite := Region.write_eq (r := r) (show textp < r.size by omega) (PoolByte.char c)
    obtain ⟨r', hall, hcopy⟩ :=
      @ih (textp + 1) { r with cell := Function.update r.cell textp (PoolByte.char c) } hsize
      (fun _ => by omega)
    refine ⟨r', ?_, ?_⟩
    · rw [List.map_cons, Region.writeAll, hwrite]
      exact hall
    · rw [copyStr, if_neg (by omega), hwrite, List.length_cons,
        Nat.add_comm str.length 1, ← Nat.add_assoc]
      exact hcopy

/-- The end of the pool is reported before a character is written there. -/
lemma copyStr_strings {str : List ℕ} {textp : ℕ} {r : Region PoolByte} (hsize : r.size = strMax)
    (hne : str ≠ []) (h : strMax ≤ textp + str.length) : copyStr str textp r = .error .strings := by
  induction str generalizing textp r with
  | nil => exact absurd rfl hne
  | cons c str ih =>
    rw [copyStr]
    split
    · rfl
    · rename_i hlt
      rw [List.length_cons] at h
      have hwrite := Region.write_eq (r := r) (show textp < r.size by omega) (PoolByte.char c)
      have hstr : str ≠ [] := by
        rintro rfl
        rw [List.length_nil] at h
        omega
      rw [hwrite]
      exact ih (r := { r with cell := Function.update r.cell textp (PoolByte.char c) }) hsize hstr
        (by omega)

/-- What a call does that stores an action: the pointer, the stored action, and the part of the pool
that it leaves as it is. -/
structure Pool.Saves (p : Pool) (c : SaveCall) (startp : ℕ) (p' : Pool) : Prop where
  /-- The pointer is behind the line number. -/
  startp_eq : startp = sizeofInt * (p.savep + 1)
  /-- The pool satisfies the invariant again. -/
  ok : p'.Ok
  /-- The action is stored at the pointer. -/
  stored : p'.Stored startp c
  /-- The cursor is behind the line number and the action. -/
  savep_eq : p'.savep = p.savep + 1 + intsOf (c.str.length + 1)
  /-- The action ends in front of the new cursor. -/
  end_le : startp + (c.str.length + 1) ≤ sizeofInt * p'.savep
  /-- What is in front of the cursor stays as it is. -/
  frame : ∀ x, x < sizeofInt * p.savep → p'.strings.cell x = p.strings.cell x

variable {p p' : Pool} {c : SaveCall}

/-- An action `|` is not stored, and the pool is left as it is. -/
lemma Pool.save_or (h : c.IsOr) : p.save c.lineno c.str = .ok (sizeofInt * (p.savep + 1), p) :=
  if_pos h

/-- When the line number fits, `save` copies the action behind it. -/
lemma Pool.save_eq (hc : ¬ c.IsOr) {r : Region PoolByte}
    (hr : Region.writeAll (intBytes c.lineno) (sizeofInt * p.savep) p.strings = some r) :
    p.save c.lineno c.str = copyStr c.str (sizeofInt * (p.savep + 1)) r >>= fun x =>
      closeStr (p.savep + 1) x.1 x.2 := by
  have hstr : ¬ c.str.head? = some 124 := hc
  rw [Pool.save, if_neg hstr, hr]
  rfl

/-- The integers that are counted for a string hold its bytes and are just enough. -/
lemma intsOf_spec (len : ℕ) : len ≤ sizeofInt * intsOf len ∧
    sizeofInt * intsOf len < len + sizeofInt := by
  unfold intsOf sizeofInt
  split <;> omega

/-- An integer has as many bytes as `sizeof(int)`. -/
@[simp] lemma length_intBytes (n : ℤ) : (intBytes n).length = sizeofInt := by simp [intBytes]

/-- A call of `save` for which the pool has no room writes outside the pool. -/
lemma Pool.save_outside (hp : p.Ok) (hc : ¬ c.IsOr) (h : ¬ p.HasRoom c.str) :
    p.save c.lineno c.str = .error .outside := by
  have hle := hp.savep_le
  have hsize := hp.size
  have hroom : ¬ (sizeofInt * p.savep + 8 ≤ strMax) ∧
    ¬ (sizeofInt * p.savep + 4 = strMax ∧ c.str ≠ []) := not_or.mp h
  have hmax : strMax = 4 * 2560 := rfl
  have hint : sizeofInt * p.savep = 4 * p.savep := rfl
  have hstart : sizeofInt * (p.savep + 1) = 4 * p.savep + 4 := rfl
  have hfour : sizeofInt = 4 := rfl
  by_cases hfull : sizeofInt * p.savep = strMax
  · -- the line number is behind the end of the pool
    have hstr : ¬ c.str.head? = some 124 := hc
    have hnone : Region.writeAll (intBytes c.lineno) (sizeofInt * p.savep) p.strings = none := by
      rw [Option.eq_none_iff_forall_ne_some]
      intro r hr
      have hfit :=
        (Region.writeAll_spec hr).2.1 (List.ne_nil_of_length_eq_add_one (length_intBytes _))
      rw [length_intBytes] at hfit
      omega
    rw [Pool.save, if_neg hstr, hnone]
    rfl
  · -- the terminator is behind the end of the pool
    have hstr : c.str = [] := by
      by_contra hne
      exact hroom.2 ⟨by omega, hne⟩
    obtain ⟨r, hr⟩ :=
      Region.exists_writeAll (r := p.strings) (a := sizeofInt * p.savep) (intBytes c.lineno)
      (by rw [length_intBytes]; omega)
    have hnone : r.write (sizeofInt * (p.savep + 1)) (.char 0) = none := by
      refine if_neg ?_
      rw [Region.size_writeAll hr]
      omega
    rw [Pool.save_eq hc hr, hstr]
    change closeStr _ _ _ = _
    rw [closeStr, hnone]
    rfl

/-- With room a call reports that the pool is full, or it stores the action. -/
lemma Pool.save_room (hp : p.Ok) (hc : ¬ c.IsOr) (h : p.HasRoom c.str) :
    (c.str ≠ [] ∧ strMax ≤ sizeofInt * (p.savep + 1) + c.str.length) ∧
    p.save c.lineno c.str = .error .strings ∨
      ∃ startp p', p.save c.lineno c.str = .ok (startp, p') ∧ p.Saves c startp p' := by
  have hsize := hp.size
  have hmax : strMax = 4 * 2560 := rfl
  have hint : sizeofInt * p.savep = 4 * p.savep := rfl
  have hstart : sizeofInt * (p.savep + 1) = 4 * p.savep + 4 := rfl
  have hfour : sizeofInt = 4 := rfl
  have hle : sizeofInt * p.savep + sizeofInt ≤ p.strings.size := by
    rcases h with h | h <;> omega
  obtain ⟨r, hr⟩ :=
    Region.exists_writeAll (r := p.strings) (a := sizeofInt * p.savep) (intBytes c.lineno)
    (by rw [length_intBytes]; exact hle)
  have hrsize : r.size = strMax := (Region.size_writeAll hr).trans hsize
  rw [Pool.save_eq hc hr]
  by_cases hfit : c.str ≠ [] → sizeofInt * (p.savep + 1) + c.str.length < strMax
  · right
    obtain ⟨r', hall, hcopy⟩ := copyStr_eq hrsize hfit
    have hend : sizeofInt * (p.savep + 1) + c.str.length < strMax := by
      by_cases hne : c.str = []
      · rcases h with h | h
        · rw [hne, List.length_nil]
          omega
        · exact absurd hne h.2
      · exact hfit hne
    have hr'size : r'.size = strMax := (Region.size_writeAll hall).trans hrsize
    obtain ⟨r'', hr''⟩ :=
      Region.exists_writeAll (r := r') [PoolByte.char 0] (Nat.succ_le_of_lt (hr'size ▸ hend))
    have hlen : sizeofInt * (p.savep + 1) + c.str.length + 1 - sizeofInt * (p.savep + 1) =
      c.str.length + 1 := by omega
    -- the three writes are one write from the cursor on
    have hwrites :
        Region.writeAll (intBytes c.lineno ++ (c.str ++ [0]).map PoolByte.char)
        (sizeofInt * p.savep) p.strings = some r'' := by
      have hnext : sizeofInt * p.savep + sizeofInt = sizeofInt * (p.savep + 1) := rfl
      rw [Region.writeAll_append, hr, Option.bind_some, List.map_append, Region.writeAll_append,
        length_intBytes, hnext, hall, Option.bind_some, List.length_map]
      exact hr''
    obtain ⟨hsize', -, hholds, hframe⟩ := Region.writeAll_spec hwrites
    obtain ⟨hline, htext⟩ := Region.holds_append.mp hholds
    rw [length_intBytes] at htext
    have hints := intsOf_spec (c.str.length + 1)
    have hmove : sizeofInt * (p.savep + 1 + intsOf (c.str.length + 1)) =
        sizeofInt * (p.savep + 1) + sizeofInt * intsOf (c.str.length + 1) := Nat.mul_add _ _ _
    have hcount : sizeofInt * intsOf (c.str.length + 1) = 4 * intsOf (c.str.length + 1) := rfl
    refine ⟨sizeofInt * (p.savep + 1), ⟨r'', p.savep + 1 + intsOf (c.str.length + 1)⟩, ?_, ?_⟩
    · rw [hcopy]
      change closeStr _ _ _ = _
      rw [closeStr, ← Region.writeAll_singleton, hr'']
      change Except.ok (_, (⟨r'', _ + intsOf (sizeofInt * (p.savep + 1) + c.str.length + 1 -
        sizeofInt * (p.savep + 1))⟩ : Pool)) = _
      rw [hlen]
    · refine ⟨rfl, ⟨hsize'.trans hsize, ?_⟩, ⟨?_, ?_, htext, ?_⟩, rfl, ?_, fun x hx =>
        hframe x (Or.inl hx)⟩
      · refine hmove.le.trans ?_
        omega
      · omega
      · have hback : sizeofInt * (p.savep + 1) - sizeofInt = sizeofInt * p.savep := by omega
        rw [hback]
        exact hline
      · rw [hsize', hsize]
        omega
      · refine le_trans ?_ hmove.ge
        omega
  · left
    rw [Classical.not_imp, Nat.not_lt] at hfit
    rw [copyStr_strings hrsize hfit.1 hfit.2]
    exact ⟨hfit, rfl⟩

/-! ## Several calls -/

/-- What several calls of `save` do: the pool in front of them stays, and each pointer leads to its
action. -/
structure Pool.Ran (p : Pool) (calls : List SaveCall) (startps : List ℕ) (p' : Pool) : Prop where
  /-- What is in front of the cursor stays as it is. -/
  frame : ∀ x, x < sizeofInt * p.savep → p'.strings.cell x = p.strings.cell x
  /-- The size of the pool stays as it is. -/
  size : p'.strings.size = p.strings.size
  /-- The actions are stored where the pointers say. -/
  stored : ∀ (i : ℕ) c startp, calls[i]? = some c → ¬ c.IsOr → startps[i]? = some startp →
    p'.Stored startp c
  /-- The first action is stored at the cursor. -/
  first : ∀ (j : ℕ) c, (∀ (k : ℕ) d, k < j → calls[k]? = some d → d.IsOr) → calls[j]? = some c →
    ¬ c.IsOr → startps[j]? = some (sizeofInt * (p.savep + 1))
  /-- `|` returns the pointer of the next action. -/
  next : ∀ (i j : ℕ) c, i < j → (∀ (k : ℕ) d, i ≤ k → k < j → calls[k]? = some d → d.IsOr) →
    calls[j]? = some c → ¬ c.IsOr → startps[i]? = startps[j]?

/-- A stored action is still there when its part of the pool has not been changed. -/
lemma Pool.Stored.congr {startp : ℕ} (h : p.Stored startp c)
    (hsize : p'.strings.size = p.strings.size) (hframe : ∀ x, x < startp + (c.str.length + 1) →
    p'.strings.cell x = p.strings.cell x) : p'.Stored startp c where
  le := h.le
  lineno :=
    h.lineno.congr fun x _ hx => hframe x (by have := h.le; rw [length_intBytes] at hx; omega)
  str := h.str.congr fun x _ hx => hframe x (by simpa using hx)
  inside := hsize.symm ▸ h.inside

/-- Calls that succeed begin with a first call that succeeds and go on with the others. -/
lemma saves_cons_eq_ok {calls : List SaveCall} {startps : List ℕ}
    (h : p.saves (c :: calls) = .ok (startps, p')) :
    ∃ startp p₁ startps', p.save c.lineno c.str = .ok (startp, p₁) ∧
      p₁.saves calls = .ok (startps', p') ∧ startps = startp :: startps' := by
  rw [Pool.saves] at h
  cases hsave : p.save c.lineno c.str with
  | error e =>
    rw [hsave] at h
    cases h
  | ok x =>
    rw [hsave] at h
    cases hrest : x.2.saves calls with
    | error e =>
      have h' : (x.2.saves calls >>= fun y => Except.ok (x.1 :: y.1, y.2)) = .ok (startps, p') := h
      rw [hrest] at h'
      cases h'
    | ok y =>
      have h' : (x.2.saves calls >>= fun y => Except.ok (x.1 :: y.1, y.2)) = .ok (startps, p') := h
      rw [hrest] at h'
      cases h'
      exact ⟨x.1, x.2, y.1, rfl, hrest, rfl⟩

/-- Several calls store their actions one behind the other. -/
lemma Pool.Ok.ran {calls : List SaveCall} {startps : List ℕ} (hp : p.Ok)
    (h : p.saves calls = .ok (startps, p')) : p.Ran calls startps p' := by
  induction calls generalizing p startps with
  | nil =>
    cases h
    exact ⟨fun _ _ => rfl, rfl, by simp, by simp, by simp⟩
  | cons c calls ih =>
    obtain ⟨startp, p₁, startps, hsave, hrest, rfl⟩ := saves_cons_eq_ok h
    by_cases hor : c.IsOr
    · -- the pointer of `|` is the one of the first action behind it
      rw [Pool.save_or hor] at hsave
      cases hsave
      have hran := ih hp hrest
      refine ⟨hran.frame, hran.size, ?_, ?_, ?_⟩
      · intro i d start hi hd hs
        cases i with
        | zero =>
          obtain rfl := Option.some.inj hi
          exact absurd hor hd
        | succ i => exact hran.stored i d start hi hd hs
      · intro j d hall hj hd
        cases j with
        | zero => rfl
        | succ j =>
          exact hran.first j d (fun k e hk he => hall (k + 1) e (Nat.succ_lt_succ hk) he) hj hd
      · intro i j d hij hall hj hd
        obtain ⟨j, rfl⟩ := Nat.exists_eq_succ_of_ne_zero (Nat.ne_of_gt (Nat.zero_lt_of_lt hij))
        cases i with
        | zero =>
          exact (hran.first j d (fun k e hk he => hall (k + 1) e (Nat.zero_le _)
            (Nat.succ_lt_succ hk) he) hj hd).symm
        | succ i =>
          exact hran.next i j d (Nat.lt_of_succ_lt_succ hij)
            (fun k e hk hk' he => hall (k + 1) e (Nat.succ_le_succ hk) (Nat.succ_lt_succ hk') he) hj
            hd
    · have hroom : p.HasRoom c.str := by
        by_contra hno
        rw [Pool.save_outside hp hor hno] at hsave
        cases hsave
      have hsaves : p.Saves c startp p₁ := by
        rcases Pool.save_room hp hor hroom with ⟨-, hfull⟩ | ⟨start, p₂, hok, hsaves⟩
        · rw [hfull] at hsave
          cases hsave
        · rw [hok] at hsave
          cases hsave
          exact hsaves
      have hran := ih hsaves.ok hrest
      have hle : sizeofInt * p.savep ≤ sizeofInt * p₁.savep := by
        have hend := hsaves.end_le
        rw [hsaves.startp_eq, Nat.mul_succ] at hend
        omega
      refine ⟨?_, hran.size.trans (hsaves.ok.size.trans hp.size.symm), ?_, ?_, ?_⟩
      · intro x hx
        exact (hran.frame x (hx.trans_le hle)).trans (hsaves.frame x hx)
      · intro i d start hi hd hs
        cases i with
        | zero =>
          obtain rfl := Option.some.inj hi
          obtain rfl := Option.some.inj hs
          exact hsaves.stored.congr hran.size fun x hx => hran.frame x (hx.trans_le hsaves.end_le)
        | succ i => exact hran.stored i d start hi hd hs
      · intro j d hall hj hd
        cases j with
        | zero => exact congrArg some hsaves.startp_eq
        | succ j => exact absurd (hall 0 c (Nat.succ_pos j) rfl) hor
      · intro i j d hij hall hj hd
        obtain ⟨j, rfl⟩ := Nat.exists_eq_succ_of_ne_zero (Nat.ne_of_gt (Nat.zero_lt_of_lt hij))
        cases i with
        | zero => exact absurd (hall 0 c le_rfl (Nat.succ_pos j) rfl) hor
        | succ i =>
          exact hran.next i j d (Nat.lt_of_succ_lt_succ hij)
            (fun k e hk hk' he => hall (k + 1) e (Nat.succ_le_succ hk) (Nat.succ_lt_succ hk') he) hj
            hd

/-- Each action that is to be stored finds room in the pool. -/
def Pool.Roomy (p : Pool) (calls : List SaveCall) : Prop :=
  ∀ before c behind startps p', calls = before ++ c :: behind → p.saves before = .ok (startps, p') →
    ¬ c.IsOr → p'.HasRoom c.str

/-- The first action finds room, and so do the other ones behind it. -/
lemma Pool.roomy_cons {calls : List SaveCall} : p.Roomy (c :: calls) ↔
    (¬ c.IsOr → p.HasRoom c.str) ∧ ∀ startp p₁, p.save c.lineno c.str = .ok (startp, p₁) →
    p₁.Roomy calls := by
  constructor
  · intro h
    refine ⟨h [] c calls [] p rfl rfl, ?_⟩
    rintro startp p₁ hsave before d behind startps p' rfl hrun hd
    refine h (c :: before) d behind (startp :: startps) p' rfl ?_ hd
    rw [Pool.saves, hsave]
    change (p₁.saves before >>= fun y => Except.ok (startp :: y.1, y.2)) = _
    rw [hrun]
    rfl
  · rintro ⟨hroom, hrest⟩ before d behind startps p' hcalls hrun hd
    cases before with
    | nil =>
      cases hcalls
      cases hrun
      exact hroom hd
    | cons e before =>
      cases hcalls
      obtain ⟨startp, p₁, startps, hsave, hrun', rfl⟩ := saves_cons_eq_ok hrun
      exact hrest startp p₁ hsave before d behind startps p' rfl hrun' hd

/-- A call that returns passes the faults of the calls behind it. -/
lemma saves_cons_eq_error {calls : List SaveCall} {startp : ℕ} {p₁ : Pool} {e : SaveFault}
    (h : p.save c.lineno c.str = .ok (startp, p₁)) : p.saves (c :: calls) = .error e ↔
    p₁.saves calls = .error e := by
  rw [Pool.saves, h]
  change (p₁.saves calls >>= fun y => Except.ok (startp :: y.1, y.2)) = _ ↔ _
  cases p₁.saves calls with
  | error e' => exact Iff.rfl
  | ok x => exact iff_of_false nofun nofun

/-- A call that fails ends the run with the same fault. -/
lemma saves_cons_of_error {calls : List SaveCall} {e : SaveFault}
    (h : p.save c.lineno c.str = .error e) : p.saves (c :: calls) = .error e := by
  rw [Pool.saves, h]
  rfl

/-- No write is outside the pool exactly when each action finds room. -/
lemma Pool.saves_ne_outside_iff {calls : List SaveCall} (hp : p.Ok) :
    p.saves calls ≠ .error .outside ↔ p.Roomy calls := by
  induction calls generalizing p with
  | nil =>
    refine iff_of_true nofun ?_
    intro before c behind startps p' h
    exact absurd (congrArg List.length h) (by simp)
  | cons c calls ih =>
    rw [Pool.roomy_cons]
    by_cases hor : c.IsOr
    · have hsave := Pool.save_or (p := p) hor
      rw [Ne, saves_cons_eq_error hsave, ← Ne, ih hp]
      constructor
      · intro h
        refine ⟨fun hno => absurd hor hno, fun startp p₁ h₁ => ?_⟩
        rw [hsave] at h₁
        cases h₁
        exact h
      · exact fun h => h.2 _ _ hsave
    · by_cases hroom : p.HasRoom c.str
      · rcases Pool.save_room hp hor hroom with ⟨-, hfull⟩ | ⟨startp, p₁, hok, hsaves⟩
        · rw [saves_cons_of_error hfull, hfull]
          exact iff_of_true nofun ⟨fun _ => hroom, nofun⟩
        · rw [Ne, saves_cons_eq_error hok, ← Ne, ih hsaves.ok]
          constructor
          · intro h
            refine ⟨fun _ => hroom, fun start p₂ h₁ => ?_⟩
            rw [hok] at h₁
            cases h₁
            exact h
          · exact fun h => h.2 _ _ hok
      · rw [saves_cons_of_error (Pool.save_outside hp hor hroom)]
        exact iff_of_false (fun h => h rfl) fun h => hroom (h.1 hor)

/-- The calls keep the accept strings exactly when each action finds room for the line number and a
character. -/
theorem saves_accept_iff (calls : List SaveCall) : KeepsStrings calls ↔ Pool.init.Roomy calls := by
  constructor
  · intro h
    exact (Pool.saves_ne_outside_iff Pool.ok_init).mp h.inside
  · intro h
    exact ⟨(Pool.saves_ne_outside_iff Pool.ok_init).mpr h, fun _ _ hran =>
      (Pool.ok_init.ran hran).stored,
      fun _ _ hran => (Pool.ok_init.ran hran).next⟩

/-- When an action has filled the pool, the line number of the next one is written behind it. -/
lemma not_keepsStrings {str : List ℕ} (hlen : str.length = 10235)
    (hor : ¬ (⟨1, str⟩ : SaveCall).IsOr) : ¬ KeepsStrings [⟨1, str⟩, ⟨2, []⟩] := by
  intro h
  have hroomy := (Pool.saves_ne_outside_iff Pool.ok_init).mp h.inside
  have hmax : strMax = 10240 := rfl
  have hstart : sizeofInt * (Pool.init.savep + 1) = 4 := rfl
  rcases Pool.save_room Pool.ok_init hor (Or.inl (by decide)) with
    ⟨⟨-, hfull⟩, -⟩ | ⟨startp, p, hok, hsaves⟩
  · rw [hlen] at hfull
    omega
  · have hend := hsaves.end_le
    rw [hsaves.startp_eq, hlen] at hend
    have hrun : Pool.init.saves [⟨1, str⟩] = .ok ([startp], p) := by
      rw [Pool.saves, hok]
      rfl
    rcases hroomy [_] ⟨2, []⟩ [] [startp] p rfl hrun nofun with hroom | ⟨-, hne⟩
    · omega
    · exact hne rfl

/-- An action of 10235 characters, and then an empty one. -/
theorem not_saves_accept : ¬ KeepsStrings [⟨1, List.replicate 10235 97⟩, ⟨2, []⟩] := by
  refine not_keepsStrings List.length_replicate ?_
  rw [SaveCall.IsOr, List.head?_replicate, if_neg (by decide)]
  decide

/-! ## The cursor alone -/

/-- The `save` of the construction, which knows the cursor only, is this one as long as the action
finds room. -/
theorem save_eq_pool {m : States} (hp : p.Ok) (hsavep : m.savep = p.savep)
    (hroom : ¬ c.IsOr → p.HasRoom c.str) :
    (p.save c.lineno c.str = .error .strings ∧ save c.str m = .error (.parseErr .strings)) ∨
      ∃ startp p', p.save c.lineno c.str = .ok (startp, p') ∧
        save c.str m = .ok (startp / sizeofInt, { m with savep := p'.savep }) := by
  have haddr : sizeofInt * (p.savep + 1) / sizeofInt = p.savep + 1 :=
    Nat.mul_div_cancel_left _ (by decide)
  by_cases hor : c.IsOr
  · refine Or.inr ⟨_, _, Pool.save_or hor, ?_⟩
    have hstr : c.str.head? = some 124 := hor
    rw [save, if_pos hstr, haddr, hsavep, ← hsavep]
  · have hstr : ¬ c.str.head? = some 124 := hor
    have hmul : 4 * (m.savep + 1) = sizeofInt * (p.savep + 1) :=
      congrArg (fun n => 4 * (n + 1)) hsavep
    rw [save, if_neg hstr, hmul]
    rcases Pool.save_room hp hor (hroom hor) with ⟨⟨hne, hfull⟩, hsave⟩ | ⟨startp, p', hok, hsaves⟩
    · have hlen := List.length_pos_of_ne_nil hne
      exact Or.inl ⟨hsave, if_pos ⟨hne, by omega⟩⟩
    · refine Or.inr ⟨startp, p', hok, ?_⟩
      have hend := hsaves.stored.inside
      have hsize := hsaves.ok.size
      have hstart := hsaves.startp_eq
      have hints : intsOf (c.str.length + 1) = (c.str.length + 4) / 4 := by
        have hspec := intsOf_spec (c.str.length + 1)
        have hfour : sizeofInt * intsOf (c.str.length + 1) = 4 * intsOf (c.str.length + 1) := rfl
        have hint : sizeofInt = 4 := rfl
        omega
      rw [if_neg, hstart, haddr, hsaves.savep_eq, hints, hsavep]
      rintro ⟨hne, hfull⟩
      have hlen := List.length_pos_of_ne_nil hne
      omega

end Lex
