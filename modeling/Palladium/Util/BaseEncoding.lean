import Palladium.Util.Strencodings

/-!
# Base64 and Base32

`EncodeBase64`, `DecodeBase64`, `EncodeBase32` and `DecodeBase32`
(`util/strencodings.cpp`) on strings as the bytes they hold. The two pairs
differ only in their constants: the group width (`6` and `5` bits), the
padding group (`4` and `8` characters), the alphabet and the decoding table.
Each is one definition with these as parameters, and the theorems are proved
once, for any alphabet whose table reads its characters back.

Both codecs round-trip every byte string. Base64 is canonical: a string the
decoder accepts is exactly the encoding of what it decodes to. Base32 is
canonical up to case: its table also reads the upper-case letters, which the
encoder never writes, so the encoding of what it decodes is the string in
lower case.
-/

namespace Palladium.Util

open Bits

set_option autoImplicit false

/-! ## The source -/

/-- `pbase64`. -/
def pbase64 : List UInt8 :=
  "ABCDEFGHIJKLMNOPQRSTUVWXYZabcdefghijklmnopqrstuvwxyz0123456789+/".toList.map Char.toUInt8

/-- `pbase32`. -/
def pbase32 : List UInt8 :=
  "abcdefghijklmnopqrstuvwxyz234567".toList.map Char.toUInt8

/-- `decode64_table`. -/
def decode64_table : List Int := [
    -1, -1, -1, -1, -1, -1, -1, -1, -1, -1, -1, -1, -1, -1, -1, -1,
    -1, -1, -1, -1, -1, -1, -1, -1, -1, -1, -1, -1, -1, -1, -1, -1,
    -1, -1, -1, -1, -1, -1, -1, -1, -1, -1, -1, 62, -1, -1, -1, 63,
    52, 53, 54, 55, 56, 57, 58, 59, 60, 61, -1, -1, -1, -1, -1, -1,
    -1, 0, 1, 2, 3, 4, 5, 6, 7, 8, 9, 10, 11, 12, 13, 14,
    15, 16, 17, 18, 19, 20, 21, 22, 23, 24, 25, -1, -1, -1, -1, -1,
    -1, 26, 27, 28, 29, 30, 31, 32, 33, 34, 35, 36, 37, 38, 39, 40,
    41, 42, 43, 44, 45, 46, 47, 48, 49, 50, 51, -1, -1, -1, -1, -1,
    -1, -1, -1, -1, -1, -1, -1, -1, -1, -1, -1, -1, -1, -1, -1, -1,
    -1, -1, -1, -1, -1, -1, -1, -1, -1, -1, -1, -1, -1, -1, -1, -1,
    -1, -1, -1, -1, -1, -1, -1, -1, -1, -1, -1, -1, -1, -1, -1, -1,
    -1, -1, -1, -1, -1, -1, -1, -1, -1, -1, -1, -1, -1, -1, -1, -1,
    -1, -1, -1, -1, -1, -1, -1, -1, -1, -1, -1, -1, -1, -1, -1, -1,
    -1, -1, -1, -1, -1, -1, -1, -1, -1, -1, -1, -1, -1, -1, -1, -1,
    -1, -1, -1, -1, -1, -1, -1, -1, -1, -1, -1, -1, -1, -1, -1, -1,
    -1, -1, -1, -1, -1, -1, -1, -1, -1, -1, -1, -1, -1, -1, -1, -1]

/-- `decode32_table`. -/
def decode32_table : List Int := [
    -1, -1, -1, -1, -1, -1, -1, -1, -1, -1, -1, -1, -1, -1, -1, -1,
    -1, -1, -1, -1, -1, -1, -1, -1, -1, -1, -1, -1, -1, -1, -1, -1,
    -1, -1, -1, -1, -1, -1, -1, -1, -1, -1, -1, -1, -1, -1, -1, -1,
    -1, -1, 26, 27, 28, 29, 30, 31, -1, -1, -1, -1, -1, -1, -1, -1,
    -1, 0, 1, 2, 3, 4, 5, 6, 7, 8, 9, 10, 11, 12, 13, 14,
    15, 16, 17, 18, 19, 20, 21, 22, 23, 24, 25, -1, -1, -1, -1, -1,
    -1, 0, 1, 2, 3, 4, 5, 6, 7, 8, 9, 10, 11, 12, 13, 14,
    15, 16, 17, 18, 19, 20, 21, 22, 23, 24, 25, -1, -1, -1, -1, -1,
    -1, -1, -1, -1, -1, -1, -1, -1, -1, -1, -1, -1, -1, -1, -1, -1,
    -1, -1, -1, -1, -1, -1, -1, -1, -1, -1, -1, -1, -1, -1, -1, -1,
    -1, -1, -1, -1, -1, -1, -1, -1, -1, -1, -1, -1, -1, -1, -1, -1,
    -1, -1, -1, -1, -1, -1, -1, -1, -1, -1, -1, -1, -1, -1, -1, -1,
    -1, -1, -1, -1, -1, -1, -1, -1, -1, -1, -1, -1, -1, -1, -1, -1,
    -1, -1, -1, -1, -1, -1, -1, -1, -1, -1, -1, -1, -1, -1, -1, -1,
    -1, -1, -1, -1, -1, -1, -1, -1, -1, -1, -1, -1, -1, -1, -1, -1,
    -1, -1, -1, -1, -1, -1, -1, -1, -1, -1, -1, -1, -1, -1, -1, -1]

/-- `table[(unsigned char)c]`. -/
def lookup (table : List Int) (c : UInt8) : Int :=
  table.getD c.toNat (-1)

/-- `while (str.size() % group) str += '='`, with `fuel` passes left. -/
def padLoop (group : Nat) : Nat → List UInt8 → List UInt8
  | 0, str => str
  | fuel + 1, str => if str.length % group ≠ 0 then padLoop group fuel (str ++ [61]) else str

/-- The body of `EncodeBase64` and `EncodeBase32`: `ConvertBits<8, tobits,
true>` looks each group up in the alphabet, then `=` pads to a whole number
of `group` characters. -/
def encodeBase (tobits group : Nat) (alphabet : List UInt8) (input : List UInt8) : List UInt8 :=
  padLoop group group ((ConvertBits 8 tobits true input).1.map fun v => alphabet.getD v.toNat 0)

/-- `EncodeBase64`. -/
def EncodeBase64 (input : List UInt8) : List UInt8 :=
  encodeBase 6 4 pbase64 input

/-- `EncodeBase32`. -/
def EncodeBase32 (input : List UInt8) : List UInt8 :=
  encodeBase 5 8 pbase32 input

/-- `while (valid && *p != 0)` after the digits: how many `=` it passes,
and whether it ends at the end of the string rather than at another
character. -/
def equalsRun : List UInt8 → Nat × Bool
  | [] => (0, true)
  | c :: rest => if c ≠ 61 then (0, false) else ((equalsRun rest).1 + 1, (equalsRun rest).2)

/-- The body of `DecodeBase64(const char*)` and `DecodeBase32(const char*)`
on the characters before the NUL: the digits up to the first character
outside the table, `ConvertBits<frombits, 8, false>` of their values, and
then only `=`, at most `group - 1` of them, up to a length that is a whole
number of groups. The bytes, and `*pf_invalid`. -/
def decodeBase (frombits group : Nat) (table : List Int) (p : List UInt8) : List UInt8 × Bool :=
  let val := (p.takeWhile fun c => lookup table c != -1).map fun c => (lookup table c).toNat.toUInt8
  let r := ConvertBits frombits 8 false val
  let run := if r.2 then equalsRun (p.dropWhile fun c => lookup table c != -1) else (0, false)
  (r.1, !(r.2 && run.2 && (val.length + run.1) % group == 0 && decide (run.1 < group)))

/-- The `std::string` overloads: a string with a NUL is invalid. -/
def decodeBaseString (frombits group : Nat) (table : List Int) (str : List UInt8) : List UInt8 × Bool :=
  if !ValidAsCString str then ([], true) else decodeBase frombits group table str

/-- `DecodeBase64`: the bytes, and `*pf_invalid`. -/
def DecodeBase64 (str : List UInt8) : List UInt8 × Bool :=
  decodeBaseString 6 4 decode64_table str

/-- `DecodeBase32`: the bytes, and `*pf_invalid`. -/
def DecodeBase32 (str : List UInt8) : List UInt8 × Bool :=
  decodeBaseString 5 8 decode32_table str

/-! ## Padding to a whole number of groups -/

/-- How much pads `len` to a multiple of `g`. -/
def padCount (g len : Nat) : Nat :=
  (g - len % g) % g

section Padding

variable {g : Nat}

theorem padCount_of_mod_eq_zero {len : Nat} (h : len % g = 0) : padCount g len = 0 := by
  rw [padCount, h, Nat.sub_zero, Nat.mod_self]

theorem padCount_of_mod_ne_zero (hg : 0 < g) {len : Nat} (h : len % g ≠ 0) :
    padCount g len = g - len % g := by
  rw [padCount, Nat.mod_eq_of_lt (by omega)]

theorem padCount_lt (hg : 0 < g) (len : Nat) : padCount g len < g :=
  Nat.mod_lt _ hg

theorem add_padCount_mod (hg : 0 < g) (len : Nat) : (len + padCount g len) % g = 0 := by
  by_cases h : len % g = 0
  · rw [padCount_of_mod_eq_zero h, Nat.add_zero, h]
  · have hm := Nat.mod_lt len hg
    have hdiv := Nat.div_add_mod len g
    rw [padCount_of_mod_ne_zero hg h]
    calc (len + (g - len % g)) % g = g * (len / g + 1) % g := by
          rw [Nat.mul_add, Nat.mul_one]
          congr 1
          omega
      _ = 0 := Nat.mul_mod_right _ _

/-- Padding below one group is the one `padCount` gives. -/
theorem eq_padCount (hg : 0 < g) {len k : Nat} (h : (len + k) % g = 0) (hk : k < g) :
    k = padCount g len := by
  have hm := Nat.mod_lt len hg
  rw [← Nat.div_add_mod len g, Nat.add_assoc, Nat.mul_add_mod] at h
  by_cases hsmall : len % g + k < g
  · rw [Nat.mod_eq_of_lt hsmall] at h
    rw [padCount_of_mod_eq_zero (by omega)]
    omega
  · rw [Nat.mod_eq_sub_mod (by omega), Nat.mod_eq_of_lt (by omega)] at h
    rw [padCount_of_mod_ne_zero hg (by omega)]
    omega

/-- One more pad leaves one fewer to go. -/
theorem padCount_succ (hg : 0 < g) {len : Nat} (h : len % g ≠ 0) :
    padCount g (len + 1) + 1 = padCount g len := by
  have hk := add_padCount_mod hg len
  have hpos : 0 < padCount g len := by
    rw [padCount_of_mod_ne_zero hg h]
    have := Nat.mod_lt len hg
    omega
  have hmod : (len + 1 + (padCount g len - 1)) % g = 0 := by
    rw [show len + 1 + (padCount g len - 1) = len + padCount g len by omega]
    exact hk
  have := eq_padCount hg hmod (by have := padCount_lt hg len; omega)
  omega

theorem padLoop_eq (hg : 0 < g) :
    ∀ (fuel : Nat) (str : List UInt8), padCount g str.length ≤ fuel →
      padLoop g fuel str = str ++ List.replicate (padCount g str.length) 61
  | 0, str, h => by
    rw [padLoop, show padCount g str.length = 0 by omega]
    simp
  | fuel + 1, str, h => by
    rw [padLoop]
    by_cases hm : str.length % g = 0
    · rw [if_neg (not_not.mpr hm), padCount_of_mod_eq_zero hm]
      simp
    · -- one `=`, then the rest of the padding
      have hsucc := padCount_succ hg hm
      have hlen : (str ++ [61]).length = str.length + 1 := by simp
      rw [if_pos hm, padLoop_eq hg fuel (str ++ [61]) (by rw [hlen]; omega), hlen, List.append_assoc,
        List.singleton_append, ← List.replicate_succ, hsucc]

end Padding

/-! ## The `=` run -/

theorem equalsRun_replicate : ∀ k : Nat, equalsRun (List.replicate k 61) = (k, true)
  | 0 => rfl
  | k + 1 => by
    rw [List.replicate_succ, equalsRun, if_neg (by decide), equalsRun_replicate k]

theorem eq_replicate_of_equalsRun : ∀ {rest : List UInt8}, (equalsRun rest).2 = true →
    rest = List.replicate (equalsRun rest).1 61
  | [], _ => rfl
  | c :: rest, h => by
    rw [equalsRun] at h ⊢
    by_cases hc : c ≠ 61
    · rw [if_pos hc] at h
      cases h
    · rw [if_neg hc] at h ⊢
      rw [not_not.mp hc, List.replicate_succ, ← eq_replicate_of_equalsRun h]

/-! ## Codecs -/

/-- What the theorems ask of an alphabet of `2 ^ bits` characters and its
decoding table: the table reads every character of the alphabet back as its
index, gives nothing outside `[0, 2 ^ bits)` otherwise, and has neither `=`
nor NUL. -/
structure IsCodec (bits : Nat) (alphabet : List UInt8) (table : List Int) : Prop where
  bits_pos : 0 < bits
  bits_le : bits ≤ 8
  lookup_alphabet : ∀ v < 2 ^ bits, lookup table (alphabet.getD v 0) = v
  table_range : ∀ x ∈ table, x = -1 ∨ 0 ≤ x ∧ x < 2 ^ bits
  lookup_equals : lookup table 61 = -1
  lookup_nul : lookup table 0 = -1

theorem isCodec_base64 : IsCodec 6 pbase64 decode64_table where
  bits_pos := by decide
  bits_le := by decide
  lookup_alphabet := by decide +kernel
  table_range := by decide +kernel
  lookup_equals := by decide
  lookup_nul := by decide

theorem isCodec_base32 : IsCodec 5 pbase32 decode32_table where
  bits_pos := by decide
  bits_le := by decide
  lookup_alphabet := by decide +kernel
  table_range := by decide +kernel
  lookup_equals := by decide
  lookup_nul := by decide

section Codec

variable {bits group : Nat} {alphabet : List UInt8} {table : List Int}

theorem lookup_cases (table : List Int) (c : UInt8) : lookup table c = -1 ∨ lookup table c ∈ table := by
  unfold lookup
  rw [List.getD_eq_getElem?_getD]
  cases h : table[c.toNat]? with
  | none => exact .inl rfl
  | some x => exact .inr (List.mem_of_getElem? h)

namespace IsCodec

variable (hC : IsCodec bits alphabet table)
include hC

theorem lookup_lt {c : UInt8} (h : lookup table c ≠ -1) : 0 ≤ lookup table c ∧ lookup table c < 2 ^ bits := by
  rcases lookup_cases table c with h' | hmem
  · exact absurd h' h
  · exact (hC.table_range _ hmem).resolve_left h

/-- `val` stores the digit a character of the table stands for. -/
theorem toNat_digit {c : UInt8} (h : lookup table c ≠ -1) :
    ((lookup table c).toNat.toUInt8).toNat = (lookup table c).toNat ∧ (lookup table c).toNat < 2 ^ bits := by
  obtain ⟨h0, hlt⟩ := hC.lookup_lt h
  have h8 : 2 ^ bits ≤ 2 ^ 8 := Nat.pow_le_pow_right (by decide) hC.bits_le
  have hlt' : (lookup table c).toNat < 2 ^ bits := by
    rw [← Int.ofNat_lt, Int.toNat_of_nonneg h0]
    exact_mod_cast hlt
  refine ⟨?_, hlt'⟩
  rw [UInt8.toNat_ofNat']
  exact Nat.mod_eq_of_lt (by omega)

/-- A group's character is read back as the group. -/
theorem digit_char {v : UInt8} (hv : v.toNat < 2 ^ bits) :
    lookup table (alphabet.getD v.toNat 0) = v.toNat ∧
      (lookup table (alphabet.getD v.toNat 0)).toNat.toUInt8 = v := by
  have hl := hC.lookup_alphabet v.toNat hv
  refine ⟨hl, ?_⟩
  rw [hl, Int.toNat_natCast]
  exact UInt8.ofNat_toNat

end IsCodec

/-- What `encodeBase` writes: the characters of the groups that
`ConvertBits` pads, then `=` up to a whole number of groups. -/
theorem encodeBase_eq (hg : 0 < group) {input out : List UInt8}
    (hconv : ConvertBits 8 bits true input = (out, true)) :
    encodeBase bits group alphabet input =
      out.map (fun v => alphabet.getD v.toNat 0) ++ List.replicate (padCount group out.length) 61 := by
  rw [encodeBase, hconv, padLoop_eq hg group _ (by rw [List.length_map]; exact (padCount_lt hg _).le),
    List.length_map]

/-- Decoding what `encodeBase` writes gives the input back, and valid. -/
theorem decodeBaseString_encodeBase (hC : IsCodec bits alphabet table) (hg : 0 < group) (input : List UInt8) :
    decodeBaseString bits group table (encodeBase bits group alphabet input) = (input, false) := by
  obtain ⟨out, hconv, hspell, hout⟩ := ConvertBits_pad (by decide : 0 < 8) hC.bits_pos hC.bits_le
    (fun (x : UInt8) (_ : x ∈ input) => x.toNat_lt)
  rw [encodeBase_eq hg hconv]
  set chars := out.map fun v => alphabet.getD v.toNat 0 with hchars
  set k := padCount group out.length
  -- the characters are all in the table, and `=` and NUL are not
  have hlook : ∀ c ∈ chars, (lookup table c != -1) = true := by
    intro c hc
    obtain ⟨v, hv, rfl⟩ := List.mem_map.mp hc
    rw [(hC.digit_char (hout v hv)).1]
    simp
  have hpad : ∀ c ∈ List.replicate k (61 : UInt8), (lookup table c != -1) = false := by
    intro c hc
    rw [List.eq_of_mem_replicate hc, hC.lookup_equals]
    rfl
  have hval : chars.map (fun c => (lookup table c).toNat.toUInt8) = out := by
    rw [hchars, List.map_map]
    conv_rhs => rw [← List.map_id out]
    exact List.map_congr_left fun v hv => (hC.digit_char (hout v hv)).2
  have hvalid : ValidAsCString (chars ++ List.replicate k 61) = true := by
    rw [ValidAsCString, takeWhile_eq_self]
    · exact beq_self_eq_true _
    intro c hc
    rcases List.mem_append.mp hc with hc | hc
    · have := hlook c hc
      exact bne_iff_ne.mpr fun h0 => by simp [h0, hC.lookup_nul] at this
    · rw [List.eq_of_mem_replicate hc]
      rfl
  have hback : ConvertBits bits 8 false out = (input, true) :=
    ConvertBits_nopad_eq hC.bits_pos (by decide) (by decide) hout (Nat.mod_lt _ hC.bits_pos)
      (by have := Nat.mod_lt (bits - 8 * input.length % bits) hC.bits_pos; have := hC.bits_le; omega)
      (fun o _ => o.toNat_lt) hspell
  rw [decodeBaseString, hvalid, Bool.not_true, if_neg Bool.false_ne_true, decodeBase,
    takeWhile_append_of_forall_false hpad, takeWhile_eq_self hlook, List.dropWhile_append_of_pos hlook,
    dropWhile_eq_self hpad, hval, hback, if_pos rfl, equalsRun_replicate]
  have hmod := add_padCount_mod hg out.length
  have hlt := padCount_lt hg out.length
  simp [k, hmod, hlt]

/-- On a string the decoder accepts, encoding what it decodes gives the
string back, with every character `c` of it as `f c`, where `f` says which
character of the alphabet the table reads `c` as (and keeps `=`). -/
theorem encodeBase_decodeBaseString (hC : IsCodec bits alphabet table) (hg : 0 < group)
    {f : UInt8 → UInt8} (hf : ∀ c, lookup table c ≠ -1 → alphabet.getD (lookup table c).toNat 0 = f c)
    (hf61 : f 61 = 61) {s ret : List UInt8} (h : decodeBaseString bits group table s = (ret, false)) :
    encodeBase bits group alphabet ret = s.map f := by
  rw [decodeBaseString] at h
  split at h
  · cases h
  rw [decodeBase] at h
  set P := fun c => lookup table c != -1
  set val := (s.takeWhile P).map fun c => (lookup table c).toNat.toUInt8 with hval
  obtain ⟨hret, hvalid⟩ := Prod.mk.inj h
  simp only [Bool.not_eq_false', Bool.and_eq_true, beq_iff_eq, decide_eq_true_eq] at hvalid
  obtain ⟨⟨⟨hok, hrun⟩, hmod⟩, hlt⟩ := hvalid
  rw [if_pos hok] at hrun hmod hlt
  -- the digits: each stands for a group, and the groups spell `ret` and fewer than `bits` zeros
  have hdig : ∀ c ∈ s.takeWhile P, lookup table c ≠ -1 := fun c hc => by
    simpa [P] using of_mem_takeWhile hc
  have hval_lt : ∀ v ∈ val, v.toNat < 2 ^ bits := by
    intro v hv
    obtain ⟨c, hc, rfl⟩ := List.mem_map.mp hv
    rw [(hC.toNat_digit (hdig c hc)).1]
    exact (hC.toNat_digit (hdig c hc)).2
  have hconv : ConvertBits bits 8 false val = (ret, true) := by
    rw [← hret, ← hok]
  obtain ⟨r, hr, -, hspell, hret8⟩ := ConvertBits_nopad_spec hC.bits_pos (by decide) (by decide) hval_lt hconv
  -- the encoder pads `ret` with the same zeros, so it writes the same groups
  obtain ⟨out, hpad, hspell', hout⟩ := ConvertBits_pad (by decide : 0 < 8) hC.bits_pos hC.bits_le
    (fun (x : UInt8) (_ : x ∈ ret) => x.toNat_lt)
  have hr' : r = padCount bits (8 * ret.length) := by
    apply eq_padCount hC.bits_pos _ hr
    have := congrArg List.length hspell
    simp only [length_ofChunks, List.length_append, List.length_replicate] at this
    rw [← this, Nat.mul_mod_right]
  have hout_eq : out = val := by
    apply ofChunks_inj hC.bits_pos hout hval_lt
    rw [hspell', hspell, hr']
    rfl
  -- the padding: `=` up to a whole number of groups, fewer than one group
  have hrest := eq_replicate_of_equalsRun hrun
  have hk : (equalsRun (s.dropWhile P)).1 = padCount group out.length := by
    rw [hout_eq]
    exact eq_padCount hg hmod hlt
  rw [encodeBase_eq hg hpad, ← hk, hout_eq, hval, List.map_map, ← hrest]
  conv_rhs => rw [← List.takeWhile_append_dropWhile (p := P) (l := s)]
  rw [List.map_append, hrest, List.map_replicate, hf61, ← hrest]
  congr 1
  apply List.map_congr_left
  intro c hc
  simp only [Function.comp_apply, (hC.toNat_digit (hdig c hc)).1]
  exact hf c (hdig c hc)

end Codec

/-! ## Base64 and Base32 -/

/-- The Base64 table reads each character of it as the alphabet character
it is. -/
theorem base64_table_canonical (c : UInt8) (h : lookup decode64_table c ≠ -1) :
    pbase64.getD (lookup decode64_table c).toNat 0 = c := by
  have hall : ∀ n < 256, lookup decode64_table n.toUInt8 ≠ -1 →
      pbase64.getD (lookup decode64_table n.toUInt8).toNat 0 = n.toUInt8 := by
    decide +kernel
  have hc : c.toNat.toUInt8 = c := UInt8.ofNat_toNat
  have := hall c.toNat c.toNat_lt (by rwa [hc])
  rwa [hc] at this

/-- The Base32 table also reads the upper-case letters, as the lower-case
ones the alphabet has. -/
theorem base32_table_lower (c : UInt8) (h : lookup decode32_table c ≠ -1) :
    pbase32.getD (lookup decode32_table c).toNat 0 = ToLower c := by
  have hall : ∀ n < 256, lookup decode32_table n.toUInt8 ≠ -1 →
      pbase32.getD (lookup decode32_table n.toUInt8).toNat 0 = ToLower n.toUInt8 := by
    decide +kernel
  have hc : c.toNat.toUInt8 = c := UInt8.ofNat_toNat
  have := hall c.toNat c.toNat_lt (by rwa [hc])
  rwa [hc] at this

/-- Both codecs give back every byte string, with `*pf_invalid` false; a
string that `DecodeBase64` accepts is the Base64 encoding of what it
decodes, and a string that `DecodeBase32` accepts is, in lower case, the
Base32 encoding of what it decodes. -/
theorem base64_base32_canonical :
    (∀ v, DecodeBase64 (EncodeBase64 v) = (v, false)) ∧
      (∀ s ret, DecodeBase64 s = (ret, false) → EncodeBase64 ret = s) ∧
      (∀ v, DecodeBase32 (EncodeBase32 v) = (v, false)) ∧
      (∀ s ret, DecodeBase32 s = (ret, false) → EncodeBase32 ret = s.map ToLower) := by
  refine ⟨fun v => decodeBaseString_encodeBase isCodec_base64 (by decide) v, ?_,
    fun v => decodeBaseString_encodeBase isCodec_base32 (by decide) v, ?_⟩
  · intro s ret h
    have := encodeBase_decodeBaseString isCodec_base64 (by decide) base64_table_canonical rfl h
    rwa [List.map_id'] at this
  · intro s ret h
    exact encodeBase_decodeBaseString isCodec_base32 (by decide) base32_table_lower (by decide) h

theorem base64_base32_canonical_QQ_MY :
    DecodeBase64 ("QQ==".toList.map Char.toUInt8) = ([65], false) ∧
      EncodeBase64 [65] = "QQ==".toList.map Char.toUInt8 ∧
      DecodeBase32 ("MY======".toList.map Char.toUInt8) = ([102], false) ∧
      EncodeBase32 [102] = ("MY======".toList.map Char.toUInt8).map ToLower := by
  have h64 : DecodeBase64 ("QQ==".toList.map Char.toUInt8) = ([65], false) := by decide
  have h32 : DecodeBase32 ("MY======".toList.map Char.toUInt8) = ([102], false) := by decide
  exact ⟨h64, base64_base32_canonical.2.1 _ _ h64, h32, base64_base32_canonical.2.2.2 _ _ h32⟩

/-- `DecodeBase32` accepts `AA======`, whose bytes `EncodeBase32` writes as
`aa======`. -/
theorem base32_uppercase_counterexample :
    DecodeBase32 ("AA======".toList.map Char.toUInt8) = ([0], false) ∧
      EncodeBase32 [0] ≠ "AA======".toList.map Char.toUInt8 :=
  ⟨by decide, by decide⟩

end Palladium.Util
