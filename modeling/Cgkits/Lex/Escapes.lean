import Cgkits.Lex.Macros
import Mathlib

/-!
# Escape sequences (`syslib.c`)

`sys_bin_to_ascii` writes a byte as printable characters and `sys_esc` reads one character of such a
text.  An escape sequence that is written with digits always has three of them, and three is the
most that `sys_esc` reads.  This is why the two functions fit together: a digit that follows an
escape sequence is never taken for a part of it.
-/

namespace Lex

/-! ## Writing -/

/-- The character of a digit, with lower case letters from ten on. -/
def digitChar (d : ℕ) : ℕ := if d < 10 then 48 + d else 87 + d

/-- `%03x` and `%03o`: the digits of a number below `base ^ 3`, filled up with zeros on the left. -/
def format03 (base c : ℕ) : List ℕ := [c / base ^ 2, c / base % base, c % base].map digitChar

/-- The `switch` of `sys_bin_to_ascii`: the characters behind the backslash. -/
def escapeTail (c : ℕ) (useHex : Bool) : List ℕ :=
  if c = 92 then [92]
  else if c = 39 then [39]
  else if c = 8 then [98]
  else if c = 12 then [102]
  else if c = 9 then [116]
  else if c = 13 then [114]
  else if c = 10 then [110]
  else if useHex then 120 :: format03 16 c
  else format03 8 c

/-- `sys_bin_to_ascii`.  Only the lower eight bits of the argument count. -/
def sysBinToAscii (c : ℤ) (useHex : Bool) : List ℕ :=
  let c := (c % 256).toNat
  if 32 ≤ c ∧ c < 127 ∧ c ≠ 39 ∧ c ≠ 92 then [c] else 92 :: escapeTail c useHex

/-! ## Reading -/

/-- Whatever `sys_esc` reads, it passes at least one character. -/
lemma sysEsc_pos {mem : List ℕ} {v : ℤ} {k : ℕ} (h : sysEsc mem = .ok (v, k)) : 1 ≤ k :=
  @charAt_pos false _ _ _ h

/-- Repeated calls of `sys_esc` up to the null character: the values. -/
def sysEscAll : List ℕ → Except Fault (List ℤ)
  | [] => .error .stray
  | c :: mem =>
    if c = 0 then .ok []
    else
      match _h : sysEsc (c :: mem) with
      | .error e => .error e
      | .ok (v, k) => do
        let vs ← sysEscAll ((c :: mem).drop k)
        .ok (v :: vs)
termination_by mem => mem.length
decreasing_by
  have hpos := sysEsc_pos _h
  simp only [List.length_drop, List.length_cons]
  omega

/-- Reading escapes from a text is one call of `sys_esc` and the calls for the rest. -/
lemma sysEscAll_append {s rest : List ℕ} {v : ℤ} (hne : s ≠ []) (h0 : 0 ∉ s)
    (h : sysEsc (s ++ rest) = .ok (v, s.length)) :
    sysEscAll (s ++ rest) = (sysEscAll rest >>= fun vs => .ok (v :: vs)) := by
  obtain ⟨c, s, rfl⟩ := List.exists_cons_of_ne_nil hne
  have hc : c ≠ 0 := fun hc => h0 (hc ▸ List.mem_cons_self)
  rw [List.cons_append] at h ⊢
  rw [sysEscAll, if_neg hc]
  split
  · rename_i e he
    exact absurd (h.symm.trans he) (by simp)
  · rename_i w k hk
    obtain ⟨rfl, rfl⟩ : v = w ∧ (c :: s).length = k := by simpa using h.symm.trans hk
    rw [← List.cons_append, List.drop_left]

/-! ## Digits -/

section Digits

variable {isDigit : ℕ → Bool} {base : ℕ} {bin : ℕ → ℕ}

/-- A character that stands for a digit is read as this digit. -/
def ReadsDigit (isDigit : ℕ → Bool) (base : ℕ) (bin : ℕ → ℕ) : Prop :=
  ∀ d < base, isDigit (digitChar d) = true ∧ bin (digitChar d) = d

/-- As many digits as the reader takes are read, whatever follows them. -/
lemma digits_map_digitChar (hread : ReadsDigit isDigit base bin) (ds rest : List ℕ) (v : ℕ)
    (hds : ∀ d ∈ ds, d < base) :
    digits isDigit base bin ds.length v (ds.map digitChar ++ rest) =
      .ok (ds.foldl (fun v d => v * base + d) v, ds.length) := by
  induction ds generalizing v with
  | nil => rfl
  | cons d ds ih =>
    obtain ⟨hdigit, hbin⟩ := hread d (hds d List.mem_cons_self)
    have hrest := ih (v * base + d) fun d' hd' => hds d' (List.mem_cons_of_mem _ hd')
    simp only [List.map_cons, List.cons_append, List.length_cons, digits, if_pos hdigit, hbin,
      List.foldl_cons]
    rw [hrest]
    rfl

/-- The three digits that are printed for a number are read back as this number. -/
lemma digits_format03 (hread : ReadsDigit isDigit base bin) {c : ℕ} (hc : c < base ^ 3)
    (rest : List ℕ) : digits isDigit base bin 3 0 (format03 base c ++ rest) = .ok (c, 3) := by
  have hbase : 0 < base := by
    rcases Nat.eq_zero_or_pos base with rfl | hpos
    · simp at hc
    · exact hpos
  have hhigh : c / base ^ 2 < base := by
    rw [Nat.div_lt_iff_lt_mul (Nat.pow_pos hbase), ← Nat.pow_succ']
    exact hc
  have hread3 := digits_map_digitChar hread [c / base ^ 2, c / base % base, c % base] rest 0 (by
    intro d hd
    rcases List.mem_cons.mp hd with rfl | hd
    · exact hhigh
    rcases List.mem_cons.mp hd with rfl | hd
    · exact Nat.mod_lt _ hbase
    · rw [List.mem_singleton.mp hd]
      exact Nat.mod_lt _ hbase)
  have hvalue : [c / base ^ 2, c / base % base, c % base].foldl (fun v d => v * base + d) 0 =
      c := by
    have hlow := Nat.div_add_mod c base
    have hmid := Nat.div_add_mod (c / base) base
    rw [Nat.div_div_eq_div_mul, ← Nat.pow_two] at hmid
    simp only [List.foldl_cons, List.foldl_nil, Nat.zero_mul, Nat.zero_add]
    rw [Nat.mul_comm (c / base ^ 2) base, hmid, Nat.mul_comm, hlow]
  rw [hvalue] at hread3
  exact hread3

end Digits

/-- The hexadecimal digits are read with their values. -/
lemma readsDigit_hex : ReadsDigit isHexdigit 16 hex2bin := by
  unfold ReadsDigit
  decide

/-- The octal digits are read with their values. -/
lemma readsDigit_oct : ReadsDigit isOctdigit 8 oct2bin := by
  unfold ReadsDigit
  decide

/-! ## One character -/

/-- An octal digit is none of the letters that `sys_esc` looks for. -/
lemma sysEscTail_octal {c : ℕ} (hc : isOctdigit c = true) (mem : List ℕ) :
    sysEscTail (c :: mem) = digits isOctdigit 8 oct2bin 3 0 (c :: mem) >>= fun r =>
      .ok ((r.1 : ℤ), r.2) := by
  have hrange : 48 ≤ c ∧ c ≤ 55 := by simpa [isOctdigit] using hc
  have hupper : toupper c = c := if_neg (by omega)
  rw [sysEscTail, hupper]
  repeat rw [if_neg (by omega)]
  rw [if_pos hc]

/-- The characters behind the backslash are read back. -/
lemma sysEscTail_escapeTail {c : ℕ} (hc : c < 256) (useHex : Bool) (rest : List ℕ) :
    sysEscTail (escapeTail c useHex ++ rest) = .ok ((c : ℤ), (escapeTail c useHex).length) := by
  unfold escapeTail
  split_ifs with h92 h39 h8 h12 h9 h13 h10 hhex
  · rw [h92]
    rfl
  · rw [h39]
    rfl
  · rw [h8]
    rfl
  · rw [h12]
    rfl
  · rw [h9]
    rfl
  · rw [h13]
    rfl
  · rw [h10]
    rfl
  · have hread := digits_format03 readsDigit_hex (c := c) (by omega) rest
    change digits isHexdigit 16 hex2bin 3 0 (format03 16 c ++ rest) >>= _ = _
    rw [hread]
    rfl
  · have hread := digits_format03 readsDigit_oct (c := c) (by omega) rest
    have hoct := (readsDigit_oct (c / 8 ^ 2) (by omega)).1
    have htail := sysEscTail_octal hoct (digitChar (c / 8 % 8) :: digitChar (c % 8) :: rest)
    change digits isOctdigit 8 oct2bin 3 0 (digitChar (c / 8 ^ 2) :: digitChar (c / 8 % 8) ::
      digitChar (c % 8) :: rest) = _ at hread
    rw [hread] at htail
    exact htail

/-- What `sys_bin_to_ascii` writes is one character for `sys_esc`, whatever follows. -/
lemma sysEsc_sysBinToAscii (c : ℤ) (useHex : Bool) (rest : List ℕ) :
    sysEsc (sysBinToAscii c useHex ++ rest) = .ok (c % 256, (sysBinToAscii c useHex).length) := by
  have hc : (((c % 256).toNat : ℕ) : ℤ) = c % 256 :=
    Int.toNat_of_nonneg (Int.emod_nonneg _ (by decide))
  have hlt : (c % 256).toNat < 256 := by omega
  unfold sysBinToAscii
  by_cases hraw : 32 ≤ (c % 256).toNat ∧ (c % 256).toNat < 127 ∧ (c % 256).toNat ≠ 39 ∧
    (c % 256).toNat ≠ 92
  · simp only [if_pos hraw, List.singleton_append, sysEsc, hc]
    rw [if_pos hraw.2.2.2]
    rfl
  · simp only [if_neg hraw, List.cons_append, sysEsc, ne_eq, not_true_eq_false, if_false,
      sysEscTail_escapeTail hlt, hc, List.length_cons]
    rfl

/-- `sys_bin_to_ascii` writes at least one character. -/
lemma sysBinToAscii_ne_nil (c : ℤ) (useHex : Bool) : sysBinToAscii c useHex ≠ [] := by
  unfold sysBinToAscii
  dsimp only
  split_ifs <;> simp

/-- The character of a digit is not the null character. -/
lemma digitChar_pos (d : ℕ) : 0 < digitChar d := by
  unfold digitChar
  split_ifs <;> omega

/-- Three digits contain no null character. -/
lemma zero_notMem_format03 (base c : ℕ) : 0 ∉ format03 base c := by
  intro h
  obtain ⟨d, -, hd⟩ := List.mem_map.mp h
  exact (digitChar_pos d).ne' hd

/-- `sys_bin_to_ascii` writes no null character. -/
lemma zero_notMem_sysBinToAscii (c : ℤ) (useHex : Bool) : 0 ∉ sysBinToAscii c useHex := by
  unfold sysBinToAscii escapeTail
  dsimp only
  split_ifs <;> simp [zero_notMem_format03]
  omega

/-! ## The round trip -/

/-- The escape sequences of several numbers, read one after the other, in front of any text. -/
lemma sysEscAll_flatMap (useHex : Bool) (w : List ℤ) (rest : List ℕ) :
    sysEscAll (w.flatMap (fun c => sysBinToAscii c useHex) ++ rest) =
      (sysEscAll rest >>= fun vs => .ok (w.map (· % 256) ++ vs)) := by
  induction w with
  | nil => cases hrest : sysEscAll rest <;> simp [hrest]
  | cons c w ih =>
    rw [List.flatMap_cons, List.append_assoc,
      sysEscAll_append (sysBinToAscii_ne_nil c useHex) (zero_notMem_sysBinToAscii c useHex)
        (sysEsc_sysBinToAscii c useHex _), ih]
    cases hrest : sysEscAll rest <;> rfl

/-- Bytes that are written with `sys_bin_to_ascii` one after the other, as signed or as unsigned
numbers, are read back by repeated calls of `sys_esc`. -/
theorem sysEscAll_sysBinToAscii (useHex : Bool) (w : List ℤ) (junk : List ℕ) :
    sysEscAll (w.flatMap (fun c => sysBinToAscii c useHex) ++ 0 :: junk) =
    .ok (w.map (· % 256)) := by
  have hend : sysEscAll (0 :: junk) = .ok [] := by simp [sysEscAll]
  rw [sysEscAll_flatMap, hend]
  simp [bind, Except.bind]

end Lex
