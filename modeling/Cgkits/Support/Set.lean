import Cgkits.Lib.BitMap

/-!
# Bit sets (`set.c`, `set.h`)

A set of non-negative integers is a map of 32-bit words.  A new set has its map inside the
structure; `enlarge` moves it to the heap when a larger element comes.  Sets live in a store and are
named by their indices, since an operation may have one set as both of its operands.  Every access
to a map is checked: an operation that leaves the map has no result.

`SetCall` is one call of a client and `SetCall.denote` what it means for sets of numbers;
`set_algebra` says that every sequence of calls computes that.
-/

namespace Support

open BitMap

/-! ## The structure -/

/-- `_SETTYPE`, the type of a word of a map. -/
abbrev SetType := BitVec 32

/-- `_BITS_IN_WORD`, the number of bits in a word of a map. -/
def bitsInWord : ℕ := 32

/-- `_DEFWORDS`, the number of words in the map of a new set. -/
def defwords : ℕ := 16

/-- `_DEFBITS`, the number of bits in the map of a new set. -/
def defbits : ℕ := defwords * bitsInWord

/-- `_DIV_WSIZE`, the index of the word in which a bit is. -/
def divWsize (bitpos : ℕ) : ℕ := bitpos >>> 5

/-- `_MOD_WSIZE`, the place of a bit within its word. -/
def modWsize (bitpos : ℕ) : ℕ := bitpos &&& 0x1f

/-- `_ROUND`, the number of words that a set needs for a bit, in steps of 16. -/
def round (bit : ℕ) : ℕ := ((divWsize bit + 16) >>> 4) <<< 4

/-- `SET_S`, a set with its map, which is on the heap or the default one inside of the record. -/
structure SetS where
  /-- The number of words in the map. -/
  nwords : ℕ
  /-- The set is complemented when this is not 0. -/
  compl : ℕ
  /-- The number of bits in the map. -/
  nbits : ℕ
  /-- The map on the heap; without one `map` points at `defmap`. -/
  heap : Option (List SetType)
  /-- The map in the structure. -/
  defmap : List SetType

/-- What `map` points at: memory of its own, or the words in the structure. -/
def SetS.map (s : SetS) : List SetType := s.heap.getD s.defmap

/-- The set after a write to what `map` points at. -/
def SetS.setMap (s : SetS) (ws : List SetType) : SetS :=
  match s.heap with
  | none => { s with defmap := ws }
  | some _ => { s with heap := some ws }

/-- The sets of a client, which names them by their indices. -/
abbrev Sets := List SetS

/-! ## The functions -/

/-- The first `n` words, which are to be copied, if there are so many. -/
def memcpy (ws : List SetType) (n : ℕ) : Option (List SetType) :=
  if n ≤ ws.length then some (ws.take n) else none

/-- The map with its first `n` words cleared, if there are so many. -/
def memset (ws : List SetType) (n : ℕ) : Option (List SetType) :=
  if n ≤ ws.length then some (List.replicate n 0#32 ++ ws.drop n) else none

/-- `set_new`: an empty set with the default map. -/
def setNew : SetS := ⟨defwords, 0, defbits, none, List.replicate defwords 0#32⟩

/-- `set_dup`: a set with the same members and a map of its own. -/
def setDup (set : SetS) : Option SetS :=
  match set.heap with
  | none => do
    let defmap ← memcpy set.defmap defwords
    some ⟨set.nwords, set.compl, set.nbits, none, defmap⟩
  | some map => do
    let map ← memcpy map set.nwords
    some ⟨set.nwords, set.compl, set.nbits, some map, List.replicate defwords 0#32⟩

/-- `enlarge`: give the set a map of `need` words, with zeros behind the old ones. -/
def enlarge (set : SetS) (need : ℕ) : Option SetS :=
  if need ≤ set.nwords then some set
  else do
    let ws ← memcpy set.map set.nwords
    some { set with
      heap := some (ws ++ List.replicate (need - set.nwords) 0#32)
      nwords := need
      nbits := need * bitsInWord % 2 ^ 32 }

/-- `_SET_GBIT` with an operator that assigns to the word of the bit. -/
def setGbit (s : SetS) (x : ℕ) (op : SetType → SetType → SetType) : Option SetS := do
  let a ← s.map[divWsize x]?
  some (s.setMap (s.map.set (divWsize x) (op a (1#32 <<< modWsize x))))

/-- `set_add`: enlarge the set so that it has the bit, and set the bit. -/
def setAdd (set : SetS) (bit : ℕ) : Option SetS := do
  let set ← enlarge set (round bit)
  setGbit set bit (· ||| ·)

/-- `SET_ADD`: set the bit, through `set_add` when it is not in the map. -/
def setADD (s : SetS) (x : ℕ) : Option SetS := if s.nbits ≤ x then setAdd s x else
    setGbit s x (· ||| ·)

/-- `SET_REMOVE`: clear the bit when it is in the map. -/
def setREMOVE (s : SetS) (x : ℕ) : Option SetS :=
  if s.nbits ≤ x then some s else setGbit s x (fun a mask => a &&& ~~~mask)

/-- `SET_MEMBER`: test the bit, which is clear when it is not in the map. -/
def setMEMBER (s : SetS) (x : ℕ) : Option Bool :=
  if s.nbits ≤ x then some false else
    (s.map[divWsize x]?).map (fun a => a &&& (1#32 <<< modWsize x) != 0)

/-- `SET_CLEAR`: clear all words of the map. -/
def setCLEAR (s : SetS) : Option SetS := do
  let ws ← memset s.map s.nwords
  some (s.setMap ws)

/-- `set_truncate`: free the map on the heap and make the default one empty. -/
def setTruncate (set : SetS) : SetS :=
  { set with
    heap := none, nwords := defwords, nbits := defbits, defmap := List.replicate defwords 0#32 }

/-- `nbits`, the number of bits in each byte, as a table. -/
def nbits : List ℕ := [
  0, 1, 1, 2, 1, 2, 2, 3, 1, 2, 2, 3, 2, 3, 3, 4,
  1, 2, 2, 3, 2, 3, 3, 4, 2, 3, 3, 4, 3, 4, 4, 5,
  1, 2, 2, 3, 2, 3, 3, 4, 2, 3, 3, 4, 3, 4, 4, 5,
  2, 3, 3, 4, 3, 4, 4, 5, 3, 4, 4, 5, 4, 5, 5, 6,
  1, 2, 2, 3, 2, 3, 3, 4, 2, 3, 3, 4, 3, 4, 4, 5,
  2, 3, 3, 4, 3, 4, 4, 5, 3, 4, 4, 5, 4, 5, 5, 6,
  2, 3, 3, 4, 3, 4, 4, 5, 3, 4, 4, 5, 4, 5, 5, 6,
  3, 4, 4, 5, 4, 5, 5, 6, 4, 5, 5, 6, 5, 6, 6, 7,
  1, 2, 2, 3, 2, 3, 3, 4, 2, 3, 3, 4, 3, 4, 4, 5,
  2, 3, 3, 4, 3, 4, 4, 5, 3, 4, 4, 5, 4, 5, 5, 6,
  2, 3, 3, 4, 3, 4, 4, 5, 3, 4, 4, 5, 4, 5, 5, 6,
  3, 4, 4, 5, 4, 5, 5, 6, 4, 5, 5, 6, 5, 6, 6, 7,
  2, 3, 3, 4, 3, 4, 4, 5, 3, 4, 4, 5, 4, 5, 5, 6,
  3, 4, 4, 5, 4, 5, 5, 6, 4, 5, 5, 6, 5, 6, 6, 7,
  3, 4, 4, 5, 4, 5, 5, 6, 4, 5, 5, 6, 5, 6, 6, 7,
  4, 5, 5, 6, 5, 6, 6, 7, 5, 6, 6, 7, 6, 7, 7, 8]

/-- The byte `k` of a map, if the map is that long. -/
def byteOf (ws : List SetType) (k : ℕ) : Option ℕ :=
  (ws[k / 4]?).map (fun a => (a.toNat >>> (8 * (k % 4))) % 256)

/-- The loop of `set_num_ele` over `n` bytes, from the byte `k` on. -/
def countBytes (ws : List SetType) : ℕ → ℕ → ℕ → Option ℕ
  | _, 0, count => some count
  | k, n + 1, count => do
    let p ← byteOf ws k
    let c ← nbits[p]?
    countBytes ws (k + 1) n ((count + c) % 2 ^ 32)

/-- `set_num_ele`.  The `unsigned` count is returned as an `int`. -/
def setNumEle (set : SetS) : Option ℤ :=
  (countBytes set.map 0 (set.nwords * 4) 0).map (fun count : ℕ => Int.bmod count (2 ^ 32))

/-- `SET_IS_EMPTY`: the number of elements is zero. -/
def setIsEmpty (s : SetS) : Option Bool := (setNumEle s).map (· == 0)

/-- A loop over `n` indices from `k` on whose body may return from the function. -/
def scan (body : ℕ → Option (Option ℤ)) : ℕ → ℕ → Option (Option ℤ)
  | _, 0 => some none
  | k, n + 1 => do
    match ← body k with
    | some r => some (some r)
    | none => scan body (k + 1) n

/-- The body `if (*p++) return r` of a loop over the words of a map. -/
def returnIfSet (ws : List SetType) (r : ℤ) (k : ℕ) : Option (Option ℤ) :=
  (ws[k]?).map (fun a => if a ≠ 0#32 then some r else none)

/-- The body `if (*p1 != *p2) return *p1 - *p2` of a loop over the words of two maps. -/
def returnIfDiffer (ws vs : List SetType) (k : ℕ) : Option (Option ℤ) := do
  let a ← ws[k]?
  let b ← vs[k]?
  some (if a ≠ b then some (a - b).toInt else none)

/-- The body `if ((*subsetp & *setp) != *subsetp) return 0`. -/
def returnIfOutside (ws vs : List SetType) (k : ℕ) : Option (Option ℤ) := do
  let a ← ws[k]?
  let b ← vs[k]?
  some (if a &&& b ≠ a then some 0 else none)

/-- `set_compare`: compare two sets word by word, and the rest of the longer one with zero. -/
def setCompare (σ : Sets) (i j : ℕ) : Option ℤ := do
  let set1 ← σ[i]?
  let set2 ← σ[j]?
  if i = j then some 0
  else
    let n := min set1.nwords set2.nwords
    match ← scan (returnIfDiffer set1.map set2.map) 0 n with
    | some r => some r
    | none =>
      if 0 < set1.nwords - n then
        (scan (returnIfSet set1.map 1) n (set1.nwords - n)).map (Option.getD · 0)
      else if 0 < set2.nwords - n then
        (scan (returnIfSet set2.map (-1)) n (set2.nwords - n)).map (Option.getD · 0)
      else some 0

/-- `set_subset`: 1 if every member of `cmpset` is a member of `set`, and else 0. -/
def setSubset (set cmpset : SetS) : Option ℤ := do
  let common := if cmpset.nwords > set.nwords then set.nwords else cmpset.nwords
  let bigger := if cmpset.nwords > set.nwords then cmpset.nwords - set.nwords else 0
  match ← scan (returnIfOutside cmpset.map set.map) 0 common with
  | some r => some r
  | none => (scan (returnIfSet cmpset.map 0) common bigger).map (Option.getD · 1)

/-- The loop `while (--n >= 0) *dp++ = f(*dp, *sp++)` from the word `k` on. -/
def opLoop (f : SetType → SetType → SetType) (dst src : ℕ) : ℕ → ℕ → Sets → Option Sets
  | _, 0, σ => some σ
  | k, n + 1, σ => do
    let s ← σ[src]?
    let d ← σ[dst]?
    let sp ← s.map[k]?
    let dp ← d.map[k]?
    opLoop f dst src (k + 1) n (σ.set dst (d.setMap (d.map.set k (f dp sp))))

/-- The loop `while (--n >= 0) *dp++ = 0` from the word `k` on. -/
def zeroLoop (dst : ℕ) : ℕ → ℕ → Sets → Option Sets
  | _, 0, σ => some σ
  | k, n + 1, σ => do
    let d ← σ[dst]?
    let _ ← d.map[k]?
    zeroLoop dst (k + 1) n (σ.set dst (d.setMap (d.map.set k 0#32)))

/-- The operation codes of `set_op`, as its callers pass them. -/
inductive SetOp where
  /-- `_UNION_OP`, the members of either. -/
  | union
  /-- `_INTERSECT_OP`, the members of both. -/
  | intersect
  /-- `_DIFFERENCE_OP`, the members of exactly one. -/
  | difference
  /-- `_ASSIGN_OP`, the members of the source. -/
  | assign
deriving DecidableEq

/-- `set_op`: an operation on two sets, whose result replaces the first one. -/
def setOp (op : SetOp) (dst src : ℕ) (σ : Sets) : Option Sets := do
  let s ← σ[src]?
  let d ← σ[dst]?
  let ssize := s.nwords
  let d ← (if d.nwords < ssize then enlarge d ssize else some d)
  let σ := σ.set dst d
  let bigger := d.nwords - ssize
  match op with
  | .union => opLoop (· ||| ·) dst src 0 ssize σ
  | .intersect => do
    let σ ← opLoop (· &&& ·) dst src 0 ssize σ
    zeroLoop dst ssize bigger σ
  | .difference => opLoop (· ^^^ ·) dst src 0 ssize σ
  | .assign => do
    let σ ← opLoop (fun _ sp => sp) dst src 0 ssize σ
    zeroLoop dst ssize bigger σ

/-! ## A client -/

/-- The type of the elements has an element. -/
instance neZero_elements : NeZero (2 ^ 31) := ⟨by decide⟩

/-- A call of a client.  The elements are the values of an `int` that are not negative. -/
inductive SetCall where
  /-- `set_new`, which makes an empty set. -/
  | new
  /-- `SET_ADD`, which puts a member in. -/
  | add (s : ℕ) (x : Fin (2 ^ 31))
  /-- `SET_REMOVE`, which takes a member out. -/
  | remove (s : ℕ) (x : Fin (2 ^ 31))
  /-- `SET_CLEAR`, which takes all members out. -/
  | clear (s : ℕ)
  /-- `set_truncate`, which also gives the map back. -/
  | truncate (s : ℕ)
  /-- `set_dup`, which makes a copy. -/
  | dup (s : ℕ)
  /-- `SET_UNION`, `SET_INTERSECT`, `SET_DIFFERENCE` and `SET_ASSIGN`. -/
  | op (how : SetOp) (dst src : ℕ)
deriving DecidableEq

/-- Apply a function to one set of a client and leave the others. -/
def update (f : SetS → Option SetS) (i : ℕ) (σ : Sets) : Option Sets := do
  let s ← σ[i]?
  let s ← f s
  some (σ.set i s)

/-- What a call of a client does to its sets. -/
def SetCall.exec (σ : Sets) : SetCall → Option Sets
  | .new => some (σ ++ [setNew])
  | .add i x => update (setADD · x) i σ
  | .remove i x => update (setREMOVE · x) i σ
  | .clear i => update setCLEAR i σ
  | .truncate i => update (fun s => some (setTruncate s)) i σ
  | .dup i => do
    let s ← σ[i]?
    let new ← setDup s
    some (σ ++ [new])
  | .op how dst src => setOp how dst src σ

/-- A sequence of calls of a client that starts without a set. -/
def execAll (calls : List SetCall) : Option Sets := calls.foldlM SetCall.exec []

/-! ## Its meaning -/

/-- The operation on sets of numbers that an operation code stands for. -/
def SetOp.denote (a b : Finset ℕ) : SetOp → Finset ℕ
  | .union => a ∪ b
  | .intersect => a ∩ b
  | .difference => symmDiff a b
  | .assign => b

/-- What a call means.  A call that names no set means nothing. -/
def SetCall.denote (as : List (Finset ℕ)) : SetCall → Option (List (Finset ℕ))
  | .new => some (as ++ [∅])
  | .add i x => (as[i]?).map (fun a => as.set i (insert x.val a))
  | .remove i x => (as[i]?).map (fun a => as.set i (a.erase x.val))
  | .clear i | .truncate i => (as[i]?).map (fun _ => as.set i ∅)
  | .dup i => (as[i]?).map (fun a => as ++ [a])
  | .op how dst src => do
    let b ← as[src]?
    let a ← as[dst]?
    some (as.set dst (how.denote a b))

/-- A sequence of calls, on sets of numbers instead of bit maps. -/
def denoteAll (calls : List SetCall) : Option (List (Finset ℕ)) := calls.foldlM SetCall.denote []

/-- The set that a call may change, if there is one. -/
def SetCall.target : SetCall → Option ℕ
  | .new | .dup _ => none
  | .add i _ | .remove i _ | .clear i | .truncate i | .op _ i _ => some i

/-! ## Well-formed sets -/

/-- What holds of every set of a client: the map has `nwords` words, which are no more than an
element can need. -/
structure SetS.Ok (s : SetS) : Prop where
  /-- The map has as many words as are counted. -/
  map : s.map.length = s.nwords
  /-- The length of the map in the structure. -/
  defmap : s.defmap.length = defwords
  /-- The number of bits is that of the words. -/
  nbits : s.nbits = s.nwords * 32
  /-- The map is not longer than the numbers need. -/
  bound : s.nwords ≤ 2 ^ 26

/-- The set of numbers that the bits of the map stand for. -/
def SetS.toFinset (s : SetS) : Finset ℕ := BitMap.toFinset s.map

variable {s s' d : SetS} {σ σ' : Sets} {x : ℕ}

/-- The map after a write is what has been written. -/
@[simp] lemma SetS.map_setMap (s : SetS) (ws : List SetType) : (s.setMap ws).map = ws := by
  unfold SetS.setMap SetS.map
  rcases s with ⟨_, _, _, _ | _, _⟩ <;> rfl

/-- A write changes only the map and not the number of words. -/
@[simp] lemma SetS.nwords_setMap (s : SetS) (ws : List SetType) :
    (s.setMap ws).nwords = s.nwords := by
  unfold SetS.setMap
  rcases s with ⟨_, _, _, _ | _, _⟩ <;> rfl

/-- A write changes only the map and not the number of bits. -/
@[simp] lemma SetS.nbits_setMap (s : SetS) (ws : List SetType) : (s.setMap ws).nbits = s.nbits := by
  unfold SetS.setMap
  rcases s with ⟨_, _, _, _ | _, _⟩ <;> rfl

/-- A write of as many words as before keeps the invariant of a set. -/
lemma SetS.Ok.setMap (hs : s.Ok) {ws : List SetType} (hws : ws.length = s.nwords) :
    (s.setMap ws).Ok := by
  refine ⟨by simpa using hws, ?_, by simpa using hs.nbits, by simpa using hs.bound⟩
  obtain ⟨hmap, hdef, -, -⟩ := hs
  rcases s with ⟨_, _, _, _ | _, _⟩
  · exact (hws.trans hmap.symm).trans hdef
  · exact hdef

/-- The shift by five is the quotient by 32. -/
@[simp] lemma divWsize_eq (x : ℕ) : divWsize x = x / 32 := Nat.shiftRight_eq_div_pow x 5

/-- The mask with `0x1f` is the remainder by 32. -/
@[simp] lemma modWsize_eq (x : ℕ) : modWsize x = x % 32 := Nat.and_two_pow_sub_one_eq_mod x 5

/-- A number below `nbits` has a word in the map. -/
lemma SetS.Ok.lt (hs : s.Ok) (hx : x < s.nbits) : x < s.map.length * 32 := by
  rw [hs.map, ← hs.nbits]
  exact hx

/-! ## Changing one set -/

/-- Copying as many words as there are copies the whole map. -/
lemma memcpy_eq {ws : List SetType} {n : ℕ} (h : ws.length = n) : memcpy ws n = some ws := by
  unfold memcpy
  rw [if_pos h.ge, List.take_of_length_le h.le]

/-- Clearing as many words as there are clears the whole map. -/
lemma memset_eq {ws : List SetType} {n : ℕ} (h : ws.length = n) :
    memset ws n = some (List.replicate n 0#32) := by
  unfold memset
  rw [if_pos h.ge, List.drop_of_length_le h.le, List.append_nil]

/-- `set_new` makes a set that is in order and has no members. -/
lemma setNew_spec : setNew.Ok ∧ setNew.toFinset = ∅ :=
  ⟨⟨rfl, rfl, rfl, by decide⟩, toFinset_replicate _⟩

/-- `set_dup` makes a set that is in order and has the same members. -/
lemma setDup_spec (hs : s.Ok) : ∃ s', setDup s = some s' ∧ s'.Ok ∧ s'.toFinset = s.toFinset := by
  obtain ⟨hmap, hdef, hnbits, hbound⟩ := hs
  rcases s with ⟨nwords, compl, nbits, _ | map, defmap⟩
  · refine ⟨⟨nwords, compl, nbits, none, defmap⟩, ?_, ⟨hmap, hdef, hnbits, hbound⟩, rfl⟩
    change (memcpy defmap defwords).bind _ = _
    rw [memcpy_eq hdef]
    rfl
  · refine ⟨⟨nwords, compl, nbits, some map, List.replicate defwords 0#32⟩, ?_,
      ⟨hmap, List.length_replicate, hnbits, hbound⟩, rfl⟩
    have hcopy : memcpy map nwords = some map := memcpy_eq hmap
    change (memcpy map nwords).bind _ = _
    rw [hcopy]
    rfl

/-- `enlarge` succeeds, adds words of zero, and never makes a set smaller. -/
lemma enlarge_spec (hs : s.Ok) {need : ℕ} (hneed : need ≤ 2 ^ 26) : ∃ s', enlarge s need = some s' ∧
    s'.Ok ∧ (∀ k, word s'.map k = word s.map k) ∧ s'.nwords = max s.nwords need := by
  unfold enlarge
  by_cases hle : need ≤ s.nwords
  · rw [if_pos hle]
    exact ⟨s, rfl, hs, fun _ => rfl, (max_eq_left hle).symm⟩
  · rw [if_neg hle]
    push Not at hle
    rw [memcpy_eq hs.map]
    refine ⟨_, rfl, ⟨?_, hs.defmap, ?_, hneed⟩, word_append_replicate s.map _,
      (max_eq_right hle.le).symm⟩
    · change (s.map ++ List.replicate (need - s.nwords) 0#32).length = need
      rw [List.length_append, List.length_replicate, hs.map]
      omega
    · change need * 32 % 2 ^ 32 = need * 32
      exact Nat.mod_eq_of_lt (by omega)

/-- `_SET_GBIT` changes the one word that has the bit. -/
lemma setGbit_eq (hx : x < s.map.length * 32) (op : SetType → SetType → SetType) :
    setGbit s x op =
    some (s.setMap (s.map.set (x / 32) (op (word s.map (x / 32)) (1#32 <<< (x % 32))))) := by
  unfold setGbit
  rw [divWsize_eq, modWsize_eq, getElem?_eq_word (div_lt_length hx)]
  rfl

/-- Setting a bit that is in the map adds it to the members. -/
lemma setGbit_or_spec (hs : s.Ok) (hx : x < s.map.length * 32) :
    ∃ s', setGbit s x (· ||| ·) = some s' ∧ s'.Ok ∧ s'.toFinset = insert x s.toFinset := by
  refine ⟨_, setGbit_eq hx _, hs.setMap ((List.length_set).trans hs.map), ?_⟩
  unfold SetS.toFinset
  rw [SetS.map_setMap]
  exact toFinset_insert hx

/-- `SET_ADD` adds a number below `2 ^ 31` to the members. -/
lemma setADD_spec (hs : s.Ok) (hx : x < 2 ^ 31) :
    ∃ s', setADD s x = some s' ∧ s'.Ok ∧ s'.toFinset = insert x s.toFinset := by
  unfold setADD
  by_cases hle : s.nbits ≤ x
  · have hround : round x = (x / 32 + 16) / 16 * 16 := by
      unfold round
      rw [divWsize_eq, Nat.shiftRight_eq_div_pow, Nat.shiftLeft_eq]
    rw [if_pos hle]
    unfold setAdd
    obtain ⟨s₁, henlarge, hs₁, hword, hnwords⟩ := enlarge_spec hs (show round x ≤ 2 ^ 26 by omega)
    have hx₁ : x < s₁.map.length * 32 := by
      rw [hs₁.map, hnwords]
      omega
    obtain ⟨s₂, hgbit, hs₂, hset⟩ := setGbit_or_spec hs₁ hx₁
    refine ⟨s₂, ?_, hs₂, ?_⟩
    · rw [henlarge]
      exact hgbit
    · rw [hset]
      exact congrArg (insert x) (toFinset_congr hword)
  · rw [if_neg hle]
    exact setGbit_or_spec hs (hs.lt (Nat.lt_of_not_le hle))

/-- `SET_REMOVE` takes a number out of the members. -/
lemma setREMOVE_spec (hs : s.Ok) (x : ℕ) :
    ∃ s', setREMOVE s x = some s' ∧ s'.Ok ∧ s'.toFinset = s.toFinset.erase x := by
  unfold setREMOVE
  by_cases hle : s.nbits ≤ x
  · rw [if_pos hle]
    refine ⟨s, rfl, hs, (Finset.erase_eq_of_notMem fun hmem => ?_).symm⟩
    have hlt := lt_of_mem_toFinset hmem
    rw [hs.map, ← hs.nbits] at hlt
    omega
  · have hx := hs.lt (Nat.lt_of_not_le hle)
    rw [if_neg hle]
    refine ⟨_, setGbit_eq hx _, hs.setMap ((List.length_set).trans hs.map), ?_⟩
    unfold SetS.toFinset
    rw [SetS.map_setMap]
    exact toFinset_erase hx

/-- `SET_CLEAR` leaves a set without members. -/
lemma setCLEAR_spec (hs : s.Ok) : ∃ s', setCLEAR s = some s' ∧ s'.Ok ∧ s'.toFinset = ∅ := by
  unfold setCLEAR
  rw [memset_eq hs.map]
  refine ⟨_, rfl, hs.setMap List.length_replicate, ?_⟩
  unfold SetS.toFinset
  rw [SetS.map_setMap]
  exact toFinset_replicate _

/-- `set_truncate` leaves a set without members, whatever the set was. -/
lemma setTruncate_spec (s : SetS) : (setTruncate s).Ok ∧ (setTruncate s).toFinset = ∅ :=
  ⟨⟨rfl, rfl, rfl, by change defwords ≤ 2 ^ 26; decide⟩, toFinset_replicate _⟩

/-! ## Queries -/

/-- `SET_MEMBER` tells whether a number is a member. -/
lemma setMEMBER_spec (hs : s.Ok) (x : ℕ) : setMEMBER s x = some (decide (x ∈ s.toFinset)) := by
  unfold setMEMBER SetS.toFinset
  rw [decide_mem_toFinset]
  by_cases hle : s.nbits ≤ x
  · rw [if_pos hle, bit_of_le (by rw [hs.map, ← hs.nbits]; exact hle)]
  · have hx := hs.lt (Nat.lt_of_not_le hle)
    have hmask : word s.map (x / 32) &&& (1#32 <<< (x % 32)) =
        if bit s.map x then 1#32 <<< (x % 32) else 0#32 := BitVec.and_twoPow _ _
    have hone : (1#32 <<< (x % 32)) ≠ 0#32 := by
      intro hzero
      have hbit := BitVec.getLsbD_twoPow (w := 32) (x % 32) (x % 32)
      rw [BitVec.twoPow_eq, hzero, BitVec.getLsbD_zero, decide_eq_true (Nat.mod_lt x (by decide)),
        decide_eq_true rfl] at hbit
      cases hbit
    rw [if_neg hle, divWsize_eq, modWsize_eq, getElem?_eq_word (div_lt_length hx), Option.map_some,
      hmask]
    by_cases hbit : bit s.map x = true
    · rw [if_pos hbit, hbit]
      exact congrArg some (bne_iff_ne.mpr hone)
    · rw [if_neg hbit, Bool.eq_false_iff.mpr hbit]
      rfl

/-- The table counts the bits of each byte. -/
lemma nbits_spec :
    ∀ p < 256, nbits[p]? = some ((Finset.range 8).filter (fun j => p.testBit j)).card := by
  decide +kernel

/-- The byte `k` of a map has the bits from `8 * k` on. -/
lemma byteOf_spec {ws : List SetType} {k : ℕ} (hk : k < ws.length * 4) :
    ∃ p < 256, byteOf ws k = some p ∧ ∀ j < 8, p.testBit j = bit ws (k * 8 + j) := by
  unfold byteOf
  rw [getElem?_eq_word (by omega), Option.map_some]
  refine ⟨_, Nat.mod_lt _ (by decide), rfl, ?_⟩
  intro j hj
  have hindex : k * 8 + j = k / 4 * 32 + (8 * (k % 4) + j) := by omega
  change (_ % 2 ^ 8).testBit j = _
  rw [hindex, bit_mul_add (by omega), Nat.testBit_mod_two_pow, decide_eq_true hj, Bool.true_and,
    Nat.testBit_shiftRight, BitVec.testBit_toNat]

/-- The loop adds the numbers of the bits of the bytes. -/
lemma countBytes_spec (ws : List SetType) (k n count : ℕ) (hn : k + n ≤ ws.length * 4) :
    countBytes ws k n count = some (if n = 0 then count else (count + ∑ i ∈ Finset.range n,
      ((Finset.range 8).filter (fun j => bit ws ((k + i) * 8 + j))).card) % 2 ^ 32) := by
  induction n generalizing k count with
  | zero => rfl
  | succ n ih =>
    obtain ⟨p, hp, hbyte, hbits⟩ := byteOf_spec (show k < ws.length * 4 by omega)
    have hcard : ((Finset.range 8).filter (fun j => p.testBit j)).card =
        ((Finset.range 8).filter (fun j => bit ws (k * 8 + j))).card := by
      refine congrArg Finset.card (Finset.filter_congr fun j hj => ?_)
      rw [hbits j (Finset.mem_range.mp hj)]
    unfold countBytes
    rw [hbyte]
    change (nbits[p]?).bind (fun c => countBytes ws (k + 1) n ((count + c) % 2 ^ 32)) = _
    rw [nbits_spec p hp, Option.bind_some, hcard, ih (k + 1) _ (by omega),
      if_neg (Nat.succ_ne_zero n), Finset.sum_range_succ']
    simp only [Nat.add_zero, Nat.add_assoc, Nat.add_comm 1]
    split
    · simp [‹n = 0›]
    · rw [Nat.mod_add_mod]
      congr 2
      omega

/-- The members fit into an `int` that is not negative. -/
lemma SetS.Ok.subset_range (hs : s.Ok) : s.toFinset ⊆ Finset.range (2 ^ 31) := by
  intro x hx
  have hlt := lt_of_mem_toFinset hx
  have hbound := hs.bound
  rw [hs.map] at hlt
  exact Finset.mem_range.mpr (by omega)

/-- `set_num_ele` returns the number of members as an `int`. -/
lemma setNumEle_spec (hs : s.Ok) : setNumEle s = some (Int.bmod s.toFinset.card (2 ^ 32)) := by
  have hcard := card_toFinset (show s.nwords * 4 * 8 = s.map.length * 32 by rw [hs.map]; omega)
  have hle := Finset.card_le_card hs.subset_range
  rw [Finset.card_range] at hle
  unfold setNumEle
  rw [countBytes_spec s.map 0 (s.nwords * 4) 0 (by rw [hs.map]; omega), Option.map_some]
  simp only [Nat.zero_add]
  rw [← hcard]
  split
  · have hzero : s.toFinset.card = 0 := by
      unfold SetS.toFinset
      rw [hcard, ‹s.nwords * 4 = 0›]
      rfl
    rw [hzero]
  · change some (Int.bmod ((s.toFinset.card % 2 ^ 32 : ℕ) : ℤ) (2 ^ 32)) = _
    rw [Nat.mod_eq_of_lt (by omega)]

/-- The number of elements is right, unless the set has all the values of an `int` that are not
negative. -/
lemma setNumEle_eq_card (hs : s.Ok) (hfull : s.toFinset ≠ Finset.range (2 ^ 31)) :
    setNumEle s = some (s.toFinset.card : ℤ) := by
  have hlt := Finset.card_lt_card (hs.subset_range.ssubset_of_ne hfull)
  rw [Finset.card_range] at hlt
  rw [setNumEle_spec hs]
  refine congrArg some (Int.bmod_eq_of_le ?_ ?_) <;> omega

/-- `SET_IS_EMPTY` tells whether the set has no members. -/
lemma setIsEmpty_spec (hs : s.Ok) : setIsEmpty s = some (decide (s.toFinset = ∅)) := by
  have hle := Finset.card_le_card hs.subset_range
  rw [Finset.card_range] at hle
  unfold setIsEmpty
  rw [setNumEle_spec hs, Option.map_some]
  refine congrArg some (Bool.eq_iff_iff.mpr ?_)
  rw [beq_iff_eq, decide_eq_true_iff, ← Finset.card_eq_zero]
  constructor
  · intro hzero
    rw [← Int.dvd_iff_bmod_eq_zero] at hzero
    by_contra hne
    exact absurd (Nat.le_of_dvd (Nat.pos_of_ne_zero hne) (Int.natCast_dvd_natCast.mp hzero))
      (by omega)
  · intro hzero
    rw [hzero]
    rfl

/-- One round of a loop calls the body, and the loop goes on if the body does not return. -/
lemma scan_succ (body : ℕ → Option (Option ℤ)) (k n : ℕ) : scan body k (n + 1) =
    (body k).bind (fun r => match r with
      | some r => some (some r)
      | none => scan body (k + 1) n) := rfl

/-- When the body does not return, the loop goes on with the next round. -/
lemma scan_of_none {body : ℕ → Option (Option ℤ)} {k : ℕ} (h : body k = some none) (n : ℕ) :
    scan body k (n + 1) = scan body (k + 1) n := by
  rw [scan_succ, h]
  rfl

/-- When the body returns, the loop returns the same value. -/
lemma scan_of_some {body : ℕ → Option (Option ℤ)} {k : ℕ} {a : ℤ} (h : body k = some (some a))
    (n : ℕ) : scan body k (n + 1) = some (some a) := by
  rw [scan_succ, h]
  rfl

/-- A loop returns at the first index whose body does. -/
lemma scan_spec {body : ℕ → Option (Option ℤ)} {g : ℕ → Option ℤ} {k n : ℕ}
    (h : ∀ j, k ≤ j → j < k + n → body j = some (g j)) : ∃ r, scan body k n = some r ∧
      (r = none → ∀ j, k ≤ j → j < k + n → g j = none) ∧ ∀ a, r = some a → ∃ j, k ≤ j ∧ j < k + n ∧
      g j = some a := by
  induction n generalizing k with
  | zero =>
    refine ⟨none, rfl, fun _ j hj hlt => by omega, ?_⟩
    intro a ha
    cases ha
  | succ n ih =>
    have hk := h k le_rfl (by omega)
    rcases hg : g k with _ | a
    · obtain ⟨r, hr, hnone, hsome⟩ := ih (k := k + 1) fun j hj hlt => h j (by omega) (by omega)
      refine ⟨r, (scan_of_none (hg ▸ hk) n).trans hr, ?_, ?_⟩
      · intro hr j hj hlt
        by_cases hjk : j = k
        · rw [hjk, hg]
        · exact hnone hr j (by omega) (by omega)
      · intro a ha
        obtain ⟨j, hj, hlt, hgj⟩ := hsome a ha
        exact ⟨j, by omega, by omega, hgj⟩
    · refine ⟨some a, scan_of_some (hg ▸ hk) n, fun hr => absurd hr (Option.some_ne_none a), ?_⟩
      intro b hb
      exact ⟨k, le_rfl, by omega, hg.trans hb⟩

/-- A loop whose body returns where a condition fails returns nothing exactly when the condition
never fails. -/
lemma scan_if {body : ℕ → Option (Option ℤ)} {p : ℕ → Prop} [DecidablePred p] {a : ℕ → ℤ} {k n : ℕ}
    (h : ∀ j, k ≤ j → j < k + n → body j = some (if p j then some (a j) else none)) :
    ∃ r, scan body k n = some r ∧ (r = none ↔ ∀ j, k ≤ j → j < k + n → ¬ p j) ∧
      ∀ b, r = some b → ∃ j, k ≤ j ∧ j < k + n ∧ p j ∧ b = a j := by
  obtain ⟨r, hr, hnone, hsome⟩ := scan_spec h
  have hret : ∀ b, r = some b → ∃ j, k ≤ j ∧ j < k + n ∧ p j ∧ b = a j := by
    intro b hb
    obtain ⟨j, hj, hlt, hjb⟩ := hsome b hb
    split at hjb
    · exact ⟨j, hj, hlt, ‹p j›, (Option.some.inj hjb).symm⟩
    · cases hjb
  refine ⟨r, hr, ⟨fun hr j hj hlt hp => ?_, fun hall => ?_⟩, hret⟩
  · have := hnone hr j hj hlt
    rw [if_pos hp] at this
    cases this
  · by_contra hne
    obtain ⟨b, hb⟩ := Option.ne_none_iff_exists'.mp hne
    obtain ⟨j, hj, hlt, hp, -⟩ := hret b hb
    exact hall j hj hlt hp

/-- The loop returns at the first index whose condition holds. -/
lemma scan_first {body : ℕ → Option (Option ℤ)} {p : ℕ → Prop} [DecidablePred p] {a : ℕ → ℤ}
    {k n : ℕ} (h : ∀ j, k ≤ j → j < k + n → body j = some (if p j then some (a j) else none))
    {j : ℕ} (hj : k ≤ j) (hlt : j < k + n) (hp : p j) (hfirst : ∀ l, k ≤ l → l < j → ¬ p l) :
    scan body k n = some (some (a j)) := by
  induction n generalizing k with
  | zero => omega
  | succ n ih =>
    have hk := h k le_rfl (by omega)
    by_cases hjk : j = k
    · subst hjk
      rw [if_pos hp] at hk
      exact scan_of_some hk n
    · rw [if_neg (hfirst k le_rfl (by omega))] at hk
      rw [scan_of_none hk]
      exact ih (fun l hl hl' => h l (by omega) (by omega)) (by omega) (by omega) fun l hl =>
        hfirst l (by omega)

/-- The loop over the tail of a map returns nothing exactly when the tail is zero. -/
lemma scan_returnIfSet (ws : List SetType) (a : ℤ) {k n : ℕ} (hn : k + n = ws.length) :
    ∃ r, scan (returnIfSet ws a) k n = some r ∧ (r = none ∨ r = some a) ∧
      (r = none ↔ ∀ j, k ≤ j → word ws j = 0#32) := by
  have hbody : ∀ j, k ≤ j → j < k + n →
      returnIfSet ws a j = some (if word ws j ≠ 0#32 then some a else none) := by
    intro j _ hlt
    unfold returnIfSet
    rw [getElem?_eq_word (by omega), Option.map_some]
  obtain ⟨r, hr, hnone, hsome⟩ := scan_if hbody
  refine ⟨r, hr, ?_, hnone.trans ⟨fun hall j hj => ?_, fun hall j hj _ => not_not.mpr (hall j hj)⟩⟩
  · rcases r with _ | b
    · exact .inl rfl
    · obtain ⟨j, -, -, -, hb⟩ := hsome b rfl
      exact .inr (congrArg some hb)
  · by_cases hlt : j < ws.length
    · exact not_not.mp (hall j hj (by omega))
    · exact word_of_le (Nat.le_of_not_lt hlt)

/-- `set_subset` tells whether one set of members is contained in the other. -/
lemma setSubset_spec {set cmpset : SetS} (hset : set.Ok) (hcmp : cmpset.Ok) :
    setSubset set cmpset = some (if cmpset.toFinset ⊆ set.toFinset then 1 else 0) := by
  obtain ⟨common, hcommon⟩ : ∃ c, c = if cmpset.nwords > set.nwords then set.nwords else
    cmpset.nwords := ⟨_, rfl⟩
  obtain ⟨bigger, hbigger⟩ : ∃ b, b = if cmpset.nwords > set.nwords then
    cmpset.nwords - set.nwords else 0 := ⟨_, rfl⟩
  have hlen : common + bigger = cmpset.nwords ∧ common ≤ set.nwords ∧
      (common < cmpset.nwords → common = set.nwords) := by
    split at hcommon
    · rw [if_pos ‹_›] at hbigger
      omega
    · rw [if_neg ‹_›] at hbigger
      omega
  have hbody : ∀ j, 0 ≤ j → j < 0 + common → returnIfOutside cmpset.map set.map j =
      some (if word cmpset.map j &&& word set.map j ≠ word cmpset.map j then some 0 else none) := by
    intro j _ hlt
    unfold returnIfOutside
    rw [getElem?_eq_word (show j < cmpset.map.length by rw [hcmp.map]; omega),
      getElem?_eq_word (show j < set.map.length by rw [hset.map]; omega)]
    rfl
  obtain ⟨r, hr, hnone, hsome⟩ := scan_if hbody
  obtain ⟨t, ht, htval, htzero⟩ := scan_returnIfSet cmpset.map 0 (hlen.1.trans hcmp.map.symm)
  have hsubset : cmpset.toFinset ⊆ set.toFinset ↔ r = none ∧ t = none := by
    unfold SetS.toFinset
    rw [toFinset_subset_iff, hnone, htzero]
    refine ⟨fun hall => ⟨fun j _ _ => not_not.mpr (hall j), fun j hj => ?_⟩, ?_⟩
    · by_cases hlt : j < cmpset.nwords
      · have hzero : word set.map j = 0#32 := word_of_le (by rw [hset.map]; omega)
        rw [← hall j, hzero, BitVec.and_zero]
      · exact word_of_le (by rw [hcmp.map]; omega)
    · rintro ⟨hall, hzero⟩ j
      by_cases hlt : j < common
      · exact not_not.mp (hall j (Nat.zero_le j) (by omega))
      · rw [hzero j (by omega), BitVec.zero_and]
  unfold setSubset
  rw [← hcommon, ← hbigger]
  dsimp only
  rw [hr]
  change (match r with
    | some r => some r
    | none => (scan (returnIfSet cmpset.map 0) common bigger).map (Option.getD · 1)) = _
  rcases r with _ | a
  · dsimp only
    rw [ht, Option.map_some]
    rcases htval with rfl | rfl
    · rw [if_pos (hsubset.mpr ⟨rfl, rfl⟩)]
      rfl
    · rw [if_neg fun h => absurd (hsubset.mp h).2 (Option.some_ne_none 0)]
      rfl
  · obtain ⟨j, -, -, -, rfl⟩ := hsome a rfl
    rw [if_neg fun h => absurd (hsubset.mp h).1 (Option.some_ne_none _)]

/-- Different words have a difference that is not zero. -/
lemma toInt_sub_ne_zero {a b : SetType} (h : a ≠ b) : (a - b).toInt ≠ 0 := by
  intro hzero
  have hsub : a - b = 0#32 := BitVec.eq_of_toInt_eq (hzero.trans BitVec.toInt_zero.symm)
  rw [BitVec.sub_eq_iff_eq_add, BitVec.zero_add] at hsub
  exact h hsub

/-- The longer map decides if the other one has ended. -/
lemma scan_tail (ws : List SetType) {a : ℤ} (ha : a ≠ 0) {k n : ℕ} (hn : k + n = ws.length) :
    ∃ r, (scan (returnIfSet ws a) k n).map (Option.getD · 0) = some r ∧
      (r = 0 ↔ ∀ j, k ≤ j → word ws j = 0#32) := by
  obtain ⟨r, hr, hval, hzero⟩ := scan_returnIfSet ws a hn
  rw [hr, Option.map_some, ← hzero]
  rcases hval with rfl | rfl
  · exact ⟨0, rfl, fun _ => rfl, fun _ => rfl⟩
  · exact ⟨a, rfl, fun h => absurd h ha, fun h => absurd h (Option.some_ne_none a)⟩

/-- `set_compare` returns 0 exactly for sets with the same members. -/
lemma setCompare_spec {i j : ℕ} {s t : SetS} (hi : σ[i]? = some s) (hj : σ[j]? = some t) (hs : s.Ok)
    (ht : t.Ok) : ∃ r, setCompare σ i j = some r ∧ (r = 0 ↔ s.toFinset = t.toFinset) := by
  unfold setCompare
  rw [hi, hj]
  change ∃ r, (if i = j then some 0 else _) = some r ∧ _
  by_cases hij : i = j
  · rw [if_pos hij]
    subst hij
    rw [hi] at hj
    cases hj
    exact ⟨0, rfl, fun _ => rfl, fun _ => rfl⟩
  · rw [if_neg hij]
    obtain ⟨n, hn⟩ : ∃ n, n = min s.nwords t.nwords := ⟨_, rfl⟩
    have hbody : ∀ k, 0 ≤ k → k < 0 + n → returnIfDiffer s.map t.map k =
        some (if word s.map k ≠ word t.map k then some (word s.map k - word t.map k).toInt
        else none) := by
      intro k _ hlt
      unfold returnIfDiffer
      rw [getElem?_eq_word (show k < s.map.length by rw [hs.map]; omega),
        getElem?_eq_word (show k < t.map.length by rw [ht.map]; omega)]
      rfl
    obtain ⟨r, hr, hnone, hsome⟩ := scan_if hbody
    rw [← hn]
    change ∃ r', (scan (returnIfDiffer s.map t.map) 0 n).bind _ = some r' ∧ _
    rw [hr, Option.bind_some]
    unfold SetS.toFinset
    rw [toFinset_eq_iff]
    rcases r with _ | a
    · -- the common words agree
      have hcommon : ∀ k < n, word s.map k = word t.map k := fun k hk =>
        not_not.mp (hnone.mp rfl k (Nat.zero_le k) (by omega))
      have htail : (∀ k, word s.map k = word t.map k) ↔ ∀ k, n ≤ k →
          word s.map k = word t.map k := by
        refine ⟨fun h k _ => h k, fun h k => ?_⟩
        rcases Nat.lt_or_ge k n with hk | hk
        · exact hcommon k hk
        · exact h k hk
      rw [htail]
      dsimp only
      by_cases hlong : 0 < s.nwords - n
      · obtain ⟨r, hr, hzero⟩ :=
          scan_tail s.map one_ne_zero (k := n) (n := s.nwords - n) (by rw [hs.map]; omega)
        rw [if_pos hlong]
        refine ⟨r, hr, hzero.trans (forall₂_congr fun k hk => ?_)⟩
        rw [word_of_le (show t.map.length ≤ k by rw [ht.map]; omega)]
      · rw [if_neg hlong]
        have hshort : ∀ k, n ≤ k → word s.map k = 0#32 :=
          fun k hk => word_of_le (by rw [hs.map]; omega)
        by_cases hlong' : 0 < t.nwords - n
        · obtain ⟨r, hr, hzero⟩ :=
            scan_tail t.map (a := -1) (by decide) (k := n) (n := t.nwords - n)
            (by rw [ht.map]; omega)
          rw [if_pos hlong']
          refine ⟨r, hr, hzero.trans (forall₂_congr fun k hk => ?_)⟩
          rw [hshort k hk, eq_comm]
        · rw [if_neg hlong']
          refine ⟨0, rfl, fun _ k hk => ?_, fun _ => rfl⟩
          rw [hshort k hk, word_of_le (show t.map.length ≤ k by rw [ht.map]; omega)]
    · obtain ⟨k, -, -, hk, rfl⟩ := hsome a rfl
      exact ⟨_, rfl, fun h => absurd h (toInt_sub_ne_zero hk), fun h => absurd (h k) hk⟩

/-! ## Binary operations -/

/-- Writing what was there changes nothing. -/
@[simp] lemma SetS.setMap_map (s : SetS) : s.setMap s.map = s := by
  unfold SetS.setMap SetS.map
  rcases s with ⟨_, _, _, _ | _, _⟩ <;> rfl

/-- A second write replaces what the first one has written. -/
@[simp] lemma SetS.setMap_setMap (s : SetS) (ws vs : List SetType) :
    (s.setMap ws).setMap vs = s.setMap vs := by
  unfold SetS.setMap
  rcases s with ⟨_, _, _, _ | _, _⟩ <;> rfl

/-- Replacing a set by itself changes nothing. -/
lemma set_self {i : ℕ} (h : σ[i]? = some s) : σ.set i s = σ := by
  obtain ⟨hlt, rfl⟩ := List.getElem?_eq_some_iff.mp h
  exact List.set_getElem_self hlt

/-- The loop changes the words that it comes to.  The source may be the same set: a word is read
before it is written. -/
lemma opLoop_spec (f : SetType → SetType → SetType) {dst src k n : ℕ} (hs : σ[src]? = some s)
    (hd : σ[dst]? = some d) (hns : k + n ≤ s.map.length) (hnd : k + n ≤ d.map.length) :
    ∃ ws, opLoop f dst src k n σ = some (σ.set dst (d.setMap ws)) ∧ ws.length = d.map.length ∧
      ∀ j, word ws j = if k ≤ j ∧ j < k + n then f (word d.map j) (word s.map j) else
        word d.map j := by
  induction n generalizing k σ s d with
  | zero =>
    refine ⟨d.map, ?_, rfl, fun j => by rw [if_neg (by omega)]⟩
    rw [SetS.setMap_map, set_self hd]
    rfl
  | succ n ih =>
    obtain ⟨hlt, -⟩ := List.getElem?_eq_some_iff.mp hd
    have hk : k < d.map.length := by omega
    let a := f (word d.map k) (word s.map k)
    let d₁ := d.setMap (d.map.set k a)
    let s₁ := if src = dst then d₁ else s
    have hd₁ : (σ.set dst d₁)[dst]? = some d₁ := List.getElem?_set_self hlt
    have hs₁ : (σ.set dst d₁)[src]? = some s₁ := by
      change _ = some (if src = dst then d₁ else s)
      by_cases h : src = dst
      · rw [if_pos h, h]
        exact hd₁
      · rw [if_neg h, List.getElem?_set_ne (Ne.symm h)]
        exact hs
    have hlen₁ : d₁.map.length = d.map.length := by
      rw [SetS.map_setMap, List.length_set]
    have hword₁ : ∀ j, word d₁.map j = if j = k then a else word d.map j := by
      intro j
      rw [SetS.map_setMap, word_set hk]
    have hsrc : s₁.map.length = s.map.length ∧ ∀ j, j ≠ k → word s₁.map j = word s.map j := by
      change (if src = dst then d₁ else s).map.length = _ ∧ ∀ j, j ≠ k →
        word (if src = dst then d₁ else s).map j = _
      by_cases h : src = dst
      · subst h
        rw [hs] at hd
        cases hd
        rw [if_pos rfl]
        exact ⟨hlen₁, fun j hj => by rw [hword₁, if_neg hj]⟩
      · rw [if_neg h]
        exact ⟨rfl, fun _ _ => rfl⟩
    obtain ⟨ws, hrun, hlen, hword⟩ :=
      ih (k := k + 1) hs₁ hd₁ (by rw [hsrc.1]; omega) (by rw [hlen₁]; omega)
    refine ⟨ws, ?_, hlen.trans hlen₁, ?_⟩
    · unfold opLoop
      rw [hs, hd]
      change (s.map[k]?).bind (fun sp => (d.map[k]?).bind (fun dp =>
        opLoop f dst src (k + 1) n (σ.set dst (d.setMap (d.map.set k (f dp sp)))))) = _
      rw [getElem?_eq_word (show k < s.map.length by omega), getElem?_eq_word hk, Option.bind_some,
        Option.bind_some, hrun, List.set_set, SetS.setMap_setMap]
    · intro j
      rw [hword, hword₁]
      by_cases hj : j = k
      · rw [if_neg (by omega), if_pos hj, if_pos (by omega), hj]
      · rw [hsrc.2 j hj, if_neg hj]
        exact if_congr (by omega) rfl rfl

/-- Writing zeros is the loop of an operation whose result is zero. -/
lemma zeroLoop_eq (dst k n : ℕ) (σ : Sets) :
    zeroLoop dst k n σ = opLoop (fun _ _ => 0#32) dst dst k n σ := by
  induction n generalizing k σ with
  | zero => rfl
  | succ n ih =>
    unfold zeroLoop opLoop
    rcases hd : σ[dst]? with _ | d
    · rfl
    · change (d.map[k]?).bind _ = (d.map[k]?).bind (fun _ => (d.map[k]?).bind _)
      rcases hk : d.map[k]? with _ | a
      · rfl
      · rw [Option.bind_some, Option.bind_some, Option.bind_some]
        exact ih (k + 1) _

/-- An operation for which the zero words behind the source mean nothing. -/
lemma opLoop_all {f : SetType → SetType → SetType} (hf : ∀ u, f u 0#32 = u) {dst src : ℕ}
    (hs : σ[src]? = some s) (hd : σ[dst]? = some d) (hle : s.map.length ≤ d.map.length) :
    ∃ ws, opLoop f dst src 0 s.map.length σ = some (σ.set dst (d.setMap ws)) ∧
      ws.length = d.map.length ∧ ∀ j, word ws j = f (word d.map j) (word s.map j) := by
  obtain ⟨ws, hrun, hlen, hword⟩ :=
    opLoop_spec f (k := 0) (n := s.map.length) hs hd (by omega) (by omega)
  refine ⟨ws, hrun, hlen, fun j => ?_⟩
  rw [hword]
  split
  · rfl
  · rw [word_of_le (show s.map.length ≤ j by omega), hf]

/-- An operation that clears the words behind the source. -/
lemma opLoop_zeroLoop_all {f : SetType → SetType → SetType} (hf : ∀ u, f u 0#32 = 0#32)
    {dst src : ℕ} (hs : σ[src]? = some s) (hd : σ[dst]? = some d)
    (hle : s.map.length ≤ d.map.length) :
    ∃ ws, (opLoop f dst src 0 s.map.length σ).bind
      (zeroLoop dst s.map.length (d.map.length - s.map.length)) =
        some (σ.set dst (d.setMap ws)) ∧ ws.length = d.map.length ∧
      ∀ j, word ws j = f (word d.map j) (word s.map j) := by
  obtain ⟨ws, hrun, hlen, hword⟩ :=
    opLoop_spec f (k := 0) (n := s.map.length) hs hd (by omega) (by omega)
  obtain ⟨hlt, -⟩ := List.getElem?_eq_some_iff.mp hd
  have hd₁ : (σ.set dst (d.setMap ws))[dst]? = some (d.setMap ws) := List.getElem?_set_self hlt
  have hlen₁ : (d.setMap ws).map.length = d.map.length := by rw [SetS.map_setMap, hlen]
  obtain ⟨vs, hzero, hlen', hword'⟩ := opLoop_spec (fun _ _ => 0#32) (k := s.map.length)
    (n := d.map.length - s.map.length) hd₁ hd₁ (by rw [hlen₁]; omega) (by rw [hlen₁]; omega)
  refine ⟨vs, ?_, hlen'.trans hlen₁, fun j => ?_⟩
  · rw [hrun, Option.bind_some, zeroLoop_eq, hzero, List.set_set, SetS.setMap_setMap]
  · rw [hword', SetS.map_setMap, hword]
    by_cases hj : j < s.map.length
    · rw [if_neg (by omega), if_pos (by omega)]
    · rw [word_of_le (show s.map.length ≤ j by omega), hf]
      by_cases hjd : j < d.map.length
      · rw [if_pos (by omega)]
      · rw [if_neg (by omega), if_neg (by omega), word_of_le (by omega)]

/-- The destination is made as long as the source, and keeps its members. -/
lemma enlarge_dst (hs : s.Ok) (hd : d.Ok) {dst src : ℕ} (hsrc : σ[src]? = some s)
    (hdst : σ[dst]? = some d) : ∃ d₁, (if d.nwords < s.nwords then enlarge d s.nwords else some d) =
    some d₁ ∧ d₁.Ok ∧
      s.map.length ≤ d₁.map.length ∧ d₁.toFinset = d.toFinset ∧ (σ.set dst d₁)[src]? = some s := by
  by_cases hlt : d.nwords < s.nwords
  · obtain ⟨d₁, henlarge, hd₁, hword, hnwords⟩ := enlarge_spec hd hs.bound
    refine ⟨d₁, ?_, hd₁, ?_, toFinset_congr hword, ?_⟩
    · rw [if_pos hlt, henlarge]
    · rw [hs.map, hd₁.map]
      omega
    · rw [List.getElem?_set_ne, hsrc]
      rintro rfl
      rw [hsrc] at hdst
      cases hdst
      exact lt_irrefl _ hlt
  · refine ⟨d, if_neg hlt, hd, ?_, rfl, ?_⟩
    · rw [hs.map, hd.map]
      omega
    · rw [set_self hdst, hsrc]

/-- `set_op` gives the destination the members that the operation on sets of numbers has. -/
lemma setOp_spec (how : SetOp) (hs : s.Ok) (hd : d.Ok) {dst src : ℕ} (hsrc : σ[src]? = some s)
    (hdst : σ[dst]? = some d) : ∃ d', setOp how dst src σ = some (σ.set dst d') ∧ d'.Ok ∧
      d'.toFinset = how.denote d.toFinset s.toFinset := by
  obtain ⟨d₁, hlarge, hd₁, hle, hset, hsrc₁⟩ := enlarge_dst hs hd hsrc hdst
  obtain ⟨hlt, -⟩ := List.getElem?_eq_some_iff.mp hdst
  have hdst₁ : (σ.set dst d₁)[dst]? = some d₁ := List.getElem?_set_self hlt
  have hdone : ∀ {ws : List SetType} {a : Finset ℕ} {r : Option Sets},
      r = some ((σ.set dst d₁).set dst (d₁.setMap ws)) → ws.length = d₁.map.length →
      BitMap.toFinset ws = a → ∃ d', r = some (σ.set dst d') ∧ d'.Ok ∧ d'.toFinset = a := by
    intro ws a r hr hlen hws
    refine ⟨d₁.setMap ws, by rw [hr, List.set_set], hd₁.setMap (hlen.trans hd₁.map), ?_⟩
    unfold SetS.toFinset
    rw [SetS.map_setMap, hws]
  unfold setOp
  rw [hsrc, hdst]
  change ∃ d', ((if d.nwords < s.nwords then enlarge d s.nwords else some d).bind _) =
    some (σ.set dst d') ∧ _
  rw [hlarge, Option.bind_some, ← hset]
  dsimp only
  rw [← hs.map, ← hd₁.map]
  cases how with
  | union =>
    obtain ⟨ws, hrun, hlen, hword⟩ :=
      opLoop_all (f := (· ||| ·)) (fun u => BitVec.or_zero) hsrc₁ hdst₁ hle
    exact hdone hrun hlen (toFinset_or (by decide) hword)
  | intersect =>
    obtain ⟨ws, hrun, hlen, hword⟩ :=
      opLoop_zeroLoop_all (f := (· &&& ·)) (fun u => BitVec.and_zero) hsrc₁ hdst₁ hle
    exact hdone hrun hlen (toFinset_and (by decide) hword)
  | difference =>
    obtain ⟨ws, hrun, hlen, hword⟩ :=
      opLoop_all (f := (· ^^^ ·)) (fun u => BitVec.xor_zero) hsrc₁ hdst₁ hle
    exact hdone hrun hlen (toFinset_xor (by decide) hword)
  | assign =>
    obtain ⟨ws, hrun, hlen, hword⟩ :=
      opLoop_zeroLoop_all (f := fun _ sp => sp) (fun _ => rfl) hsrc₁ hdst₁ hle
    exact hdone hrun hlen (toFinset_congr hword)

/-! ## A sequence of calls -/

/-- The call has run: its results are sets of the client that mean `as`, and it has changed at most
the set `target`. -/
def Ran (σ σ' : Sets) (as : List (Finset ℕ)) (target : Option ℕ) : Prop :=
  (∀ s ∈ σ', s.Ok) ∧ σ'.map SetS.toFinset = as ∧ ∀ k < σ.length, target ≠ some k → σ'[k]? = σ[k]?

/-- Replacing one set by one with other members replaces its members. -/
lemma ran_set (hσ : ∀ s ∈ σ, s.Ok) {i : ℕ} (hs : s.Ok) {a : Finset ℕ} (ha : s.toFinset = a) :
    Ran σ (σ.set i s) ((σ.map SetS.toFinset).set i a) (some i) := by
  refine ⟨fun t ht =>
    ?_, by rw [List.map_set, ha], fun k _ hk => List.getElem?_set_ne fun h => hk (congrArg some h)⟩
  rcases List.mem_or_eq_of_mem_set ht with ht | rfl
  · exact hσ t ht
  · exact hs

/-- Adding a set at the end adds its members at the end. -/
lemma ran_concat (hσ : ∀ s ∈ σ, s.Ok) (hs : s.Ok) {a : Finset ℕ} (ha : s.toFinset = a) :
    Ran σ (σ ++ [s]) (σ.map SetS.toFinset ++ [a]) none := by
  refine ⟨fun t ht =>
    ?_, by rw [List.map_append, List.map_singleton, ha], fun k hk _ => List.getElem?_append_left hk⟩
  rcases List.mem_append.mp ht with ht | ht
  · exact hσ t ht
  · exact List.mem_singleton.mp ht ▸ hs

/-- A function that changes one set as an operation on its members does so on the sets of a
client. -/
lemma update_spec (hσ : ∀ s ∈ σ, s.Ok) {f : SetS → Option SetS} {g : Finset ℕ → Finset ℕ}
    (hf : ∀ s, s.Ok → ∃ s', f s = some s' ∧ s'.Ok ∧ s'.toFinset = g s.toFinset) {i : ℕ}
    {as : List (Finset ℕ)}
    (h : ((σ.map SetS.toFinset)[i]?).map (fun a => (σ.map SetS.toFinset).set i (g a)) = some as) :
    ∃ σ', update f i σ = some σ' ∧ Ran σ σ' as (some i) := by
  rw [List.getElem?_map, Option.map_map, Option.map_eq_some_iff] at h
  obtain ⟨s, hs, rfl⟩ := h
  obtain ⟨s', hrun, hok, hset⟩ := hf s (hσ s (List.mem_of_getElem? hs))
  refine ⟨σ.set i s', ?_, ran_set hσ hok hset⟩
  unfold update
  rw [hs]
  change (f s).bind _ = _
  rw [hrun]
  rfl

/-- A call of a client does to the bit maps what it does to the sets of numbers. -/
lemma exec_spec (hσ : ∀ s ∈ σ, s.Ok) {c : SetCall} {as : List (Finset ℕ)}
    (h : c.denote (σ.map SetS.toFinset) = some as) :
    ∃ σ', c.exec σ = some σ' ∧ Ran σ σ' as c.target := by
  cases c with
  | new =>
    cases h
    exact ⟨_, rfl, ran_concat hσ setNew_spec.1 setNew_spec.2⟩
  | add i x => exact update_spec hσ (fun s hs => setADD_spec hs x.isLt) h
  | remove i x => exact update_spec hσ (fun s hs => setREMOVE_spec hs x.val) h
  | clear i => exact update_spec hσ (fun s hs => setCLEAR_spec hs) h
  | truncate i => exact update_spec hσ (fun s _ => ⟨_, rfl, setTruncate_spec s⟩) h
  | dup i =>
    change ((σ.map SetS.toFinset)[i]?).map (fun a => σ.map SetS.toFinset ++ [a]) = some as at h
    rw [List.getElem?_map, Option.map_map, Option.map_eq_some_iff] at h
    obtain ⟨s, hs, rfl⟩ := h
    obtain ⟨s', hrun, hok, hset⟩ := setDup_spec (hσ s (List.mem_of_getElem? hs))
    refine ⟨σ ++ [s'], ?_, ran_concat hσ hok hset⟩
    change (σ[i]?).bind (fun s => (setDup s).bind (fun new => some (σ ++ [new]))) = _
    rw [hs, Option.bind_some, hrun, Option.bind_some]
  | op how dst src =>
    obtain ⟨b, hb, h⟩ := Option.bind_eq_some_iff.mp h
    obtain ⟨a, ha, h⟩ := Option.bind_eq_some_iff.mp h
    rw [List.getElem?_map, Option.map_eq_some_iff] at ha hb
    obtain ⟨s, hs, rfl⟩ := hb
    obtain ⟨d, hd, rfl⟩ := ha
    cases h
    obtain ⟨d', hrun, hok, hset⟩ :=
      setOp_spec how (hσ s (List.mem_of_getElem? hs)) (hσ d (List.mem_of_getElem? hd)) hs hd
    exact ⟨_, hrun, ran_set hσ hok hset⟩

/-- A sequence of calls, from any sets on, does to the bit maps what it does to the sets of
numbers. -/
lemma execAll_spec {calls : List SetCall} (hσ : ∀ s ∈ σ, s.Ok) {as : List (Finset ℕ)}
    (h : calls.foldlM SetCall.denote (σ.map SetS.toFinset) = some as) :
    ∃ σ', calls.foldlM SetCall.exec σ = some σ' ∧ (∀ s ∈ σ', s.Ok) ∧ σ'.map SetS.toFinset = as := by
  induction calls generalizing σ with
  | nil =>
    cases h
    exact ⟨σ, rfl, hσ, rfl⟩
  | cons c calls ih =>
    rw [List.foldlM_cons] at h
    obtain ⟨as₁, hc, h⟩ := Option.bind_eq_some_iff.mp h
    obtain ⟨σ₁, hrun₁, hσ₁, has₁, -⟩ := exec_spec hσ hc
    obtain ⟨σ', hrun, hσ', has⟩ := ih hσ₁ (by rw [has₁]; exact h)
    refine ⟨σ', ?_, hσ', has⟩
    rw [List.foldlM_cons, hrun₁]
    exact hrun

/-- The answers of the sets of a client are those of sets of numbers. -/
structure Answers (σ : Sets) (as : List (Finset ℕ)) : Prop where
  /-- There are as many sets as the model has. -/
  length : σ.length = as.length
  /-- The lengths of the maps are those counted. -/
  nbits : ∀ s ∈ σ, s.nbits = 32 * s.nwords ∧ s.map.length = s.nwords
  /-- `SET_MEMBER` answers as the set of the model. -/
  member : ∀ (i : ℕ) (s : SetS) (a : Finset ℕ), σ[i]? = some s → as[i]? = some a →
    ∀ x, setMEMBER s x = some (decide (x ∈ a))
  /-- `set_num_ele` answers as the set of the model. -/
  numEle : ∀ (i : ℕ) (s : SetS) (a : Finset ℕ), σ[i]? = some s → as[i]? = some a →
    a ≠ Finset.range (2 ^ 31) → setNumEle s = some (a.card : ℤ)
  /-- `SET_IS_EMPTY` answers as the set of the model. -/
  isEmpty : ∀ (i : ℕ) (s : SetS) (a : Finset ℕ), σ[i]? = some s → as[i]? = some a →
    setIsEmpty s = some (decide (a = ∅))
  /-- `set_subset` answers as the sets of the model. -/
  subset : ∀ (i j : ℕ) (s t : SetS) (a b : Finset ℕ), σ[i]? = some s → as[i]? = some a →
    σ[j]? = some t → as[j]? = some b → setSubset s t = some (if b ⊆ a then 1 else 0)
  /-- `set_compare` answers as the sets of the model. -/
  compare : ∀ (i j : ℕ) (a b : Finset ℕ), as[i]? = some a → as[j]? = some b →
    ∃ r, setCompare σ i j = some r ∧ (r = 0 ↔ a = b)

/-- Sets that are well-formed answer as the sets of numbers that they stand for. -/
lemma answers_of_ok (hσ : ∀ s ∈ σ, s.Ok) : Answers σ (σ.map SetS.toFinset) := by
  have hget : ∀ {i : ℕ} {s : SetS} {a : Finset ℕ}, σ[i]? = some s →
      (σ.map SetS.toFinset)[i]? = some a → s.Ok ∧ s.toFinset = a := by
    intro i s a hs ha
    rw [List.getElem?_map, hs, Option.map_some, Option.some.injEq] at ha
    exact ⟨hσ s (List.mem_of_getElem? hs), ha⟩
  refine ⟨(List.length_map _).symm, ?_, ?_, ?_, ?_, ?_, ?_⟩
  · intro s hs
    exact ⟨(hσ s hs).nbits.trans (Nat.mul_comm _ _), (hσ s hs).map⟩
  · intro i s a hs ha x
    obtain ⟨hok, rfl⟩ := hget hs ha
    exact setMEMBER_spec hok x
  · intro i s a hs ha hfull
    obtain ⟨hok, rfl⟩ := hget hs ha
    exact setNumEle_eq_card hok hfull
  · intro i s a hs ha
    obtain ⟨hok, rfl⟩ := hget hs ha
    exact setIsEmpty_spec hok
  · intro i j s t a b hs ha ht hb
    obtain ⟨hok, rfl⟩ := hget hs ha
    obtain ⟨hok', rfl⟩ := hget ht hb
    exact setSubset_spec hok hok'
  · intro i j a b ha hb
    rw [List.getElem?_map, Option.map_eq_some_iff] at ha hb
    obtain ⟨s, hs, rfl⟩ := ha
    obtain ⟨t, ht, rfl⟩ := hb
    exact setCompare_spec hs ht (hσ s (List.mem_of_getElem? hs)) (hσ t (List.mem_of_getElem? ht))

/-- Every sequence of calls stays within the maps, and the sets answer as the sets of numbers that
it means; a call changes only the set that it is for. -/
theorem set_algebra (calls : List SetCall) (as : List (Finset ℕ)) (h : denoteAll calls = some as) :
    ∃ σ, execAll calls = some σ ∧ Answers σ as ∧
      ∀ (c : SetCall) (as' : List (Finset ℕ)), c.denote as = some as' → ∃ σ', c.exec σ = some σ' ∧
        ∀ k < σ.length, c.target ≠ some k → σ'[k]? = σ[k]? := by
  obtain ⟨σ, hrun, hσ, rfl⟩ := execAll_spec (σ := []) (fun s hs => absurd hs List.not_mem_nil) h
  refine ⟨σ, hrun, answers_of_ok hσ, ?_⟩
  intro c as' hc
  obtain ⟨σ', hexec, -, -, hframe⟩ := exec_spec hσ hc
  exact ⟨σ', hexec, hframe⟩

/-- The calls that make one set and add the elements of a list to it. -/
def addAll (xs : List (Fin (2 ^ 31))) : List SetCall := .new :: xs.map (SetCall.add 0)

/-- The set of these calls has exactly the elements of the list. -/
lemma denoteAll_addAll (xs : List (Fin (2 ^ 31))) :
    denoteAll (addAll xs) = some [(xs.map Fin.val).toFinset] := by
  have hadd : ∀ a : Finset ℕ, (xs.map (SetCall.add 0)).foldlM SetCall.denote [a] =
      some [(xs.map Fin.val).toFinset ∪ a] := by
    induction xs with
    | nil =>
      intro a
      exact congrArg (fun b => some [b]) (Finset.empty_union a).symm
    | cons x xs ih =>
      intro a
      refine (ih (insert x.val a)).trans (congrArg (fun b => some [b]) ?_)
      rw [List.map_cons, List.toFinset_cons, Finset.union_insert, Finset.insert_union]
  exact (hadd ∅).trans (congrArg (fun b => some [b]) (Finset.union_empty _))

/-- The sets `{3, 700}` and `{700}`: the first map has been enlarged. -/
theorem set_algebra_enlarged :
    ∃ σ, execAll [.new, .add 0 3, .add 0 700, .dup 0, .remove 1 3] = some σ ∧
    Answers σ [{3, 700}, {700}] ∧ ∀ (c : SetCall)
    (as' : List (Finset ℕ)), c.denote [{3, 700}, {700}] = some as' → ∃ σ', c.exec σ = some σ' ∧
      ∀ k < σ.length, c.target ≠ some k → σ'[k]? = σ[k]? :=
  set_algebra [.new, .add 0 3, .add 0 700, .dup 0, .remove 1 3] [{3, 700}, {700}] (by decide)

/-- The set of all values of an `int` that are not negative has a number of elements that is no
`int`. -/
theorem not_setNumEle_full : ¬ ∀ calls as, denoteAll calls = some as → ∃ σ, execAll calls = some σ ∧
    ∀ (i : ℕ) (s : SetS) (a : Finset ℕ), σ[i]? = some s → as[i]? = some a →
      setNumEle s = some (a.card : ℤ) := by
  intro hall
  have hfull : denoteAll (addAll (List.finRange (2 ^ 31))) = some [Finset.range (2 ^ 31)] := by
    rw [denoteAll_addAll, List.map_coe_finRange_eq_range, List.toFinset_range]
  obtain ⟨σ, hrun, hcard⟩ := hall _ _ hfull
  obtain ⟨σ', hrun', hσ, has⟩ :=
    execAll_spec (σ := []) (fun s hs => absurd hs List.not_mem_nil) hfull
  obtain rfl : σ = σ' := Option.some.inj (hrun.symm.trans hrun')
  obtain ⟨s, rfl, hs⟩ := List.map_eq_singleton_iff.mp has
  have hnum := hcard 0 s (Finset.range (2 ^ 31)) rfl rfl
  have hmod : Int.bmod ((2 ^ 31 : ℕ) : ℤ) (2 ^ 32) = -2 ^ 31 := by decide
  rw [setNumEle_spec (hσ s (List.mem_singleton_self s)), hs, Finset.card_range, hmod,
    Option.some.injEq] at hnum
  exact absurd hnum (by decide)

end Support
