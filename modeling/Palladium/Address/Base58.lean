import Mathlib.Data.Nat.Digits.Lemmas
import Palladium.Util.Strencodings

/-!
# Base58 and Base58Check

`EncodeBase58` and `DecodeBase58` (`base58.cpp`) convert between bytes and
base-58 digits with a carry loop over a fixed-size digit array, and a leading
zero byte stands for a leading `'1'`. The array is sized from the input's
length, and the loop asserts that no carry is left over.

Each function is proved equal to a positional reading: the encoder writes the
base-58 digits of the number the bytes spell, and the decoder the bytes of
the number the digits spell. Neither assertion fires. Decoding what was encoded
gives the bytes back, and encoding what was decoded gives the string without
its surrounding whitespace. `EncodeBase58Check` and `DecodeBase58Check` add and
check four bytes of the hash, with the hash an arbitrary function.
-/

namespace Palladium.Address

open Palladium.Util
open Nat (digits ofDigits digitsAppend ofDigits_cons ofDigits_nil digits_zero digits_def')

set_option autoImplicit false

/-- `base_blob<BITS>` (`uint256.h`): an opaque array of `BITS / 8` bytes. -/
structure base_blob (BITS : Nat) where
  data : List UInt8
  size_eq : data.length = BITS / 8
deriving DecidableEq

/-- All alphanumeric characters except for "0", "I", "O", and "l". -/
def pszBase58 : List UInt8 :=
  "123456789ABCDEFGHJKLMNPQRSTUVWXYZabcdefghijkmnopqrstuvwxyz".toList.map Char.toUInt8

/-- `mapBase58`: the digit of each character, `-1` outside the alphabet. -/
def mapBase58 : List Int := [
  -1, -1, -1, -1, -1, -1, -1, -1, -1, -1, -1, -1, -1, -1, -1, -1,
  -1, -1, -1, -1, -1, -1, -1, -1, -1, -1, -1, -1, -1, -1, -1, -1,
  -1, -1, -1, -1, -1, -1, -1, -1, -1, -1, -1, -1, -1, -1, -1, -1,
  -1, 0, 1, 2, 3, 4, 5, 6, 7, 8, -1, -1, -1, -1, -1, -1,
  -1, 9, 10, 11, 12, 13, 14, 15, 16, -1, 17, 18, 19, 20, 21, -1,
  22, 23, 24, 25, 26, 27, 28, 29, 30, 31, 32, -1, -1, -1, -1, -1,
  -1, 33, 34, 35, 36, 37, 38, 39, 40, 41, 42, 43, -1, 44, 45, 46,
  47, 48, 49, 50, 51, 52, 53, 54, 55, 56, 57, -1, -1, -1, -1, -1,
  -1, -1, -1, -1, -1, -1, -1, -1, -1, -1, -1, -1, -1, -1, -1, -1,
  -1, -1, -1, -1, -1, -1, -1, -1, -1, -1, -1, -1, -1, -1, -1, -1,
  -1, -1, -1, -1, -1, -1, -1, -1, -1, -1, -1, -1, -1, -1, -1, -1,
  -1, -1, -1, -1, -1, -1, -1, -1, -1, -1, -1, -1, -1, -1, -1, -1,
  -1, -1, -1, -1, -1, -1, -1, -1, -1, -1, -1, -1, -1, -1, -1, -1,
  -1, -1, -1, -1, -1, -1, -1, -1, -1, -1, -1, -1, -1, -1, -1, -1,
  -1, -1, -1, -1, -1, -1, -1, -1, -1, -1, -1, -1, -1, -1, -1, -1,
  -1, -1, -1, -1, -1, -1, -1, -1, -1, -1, -1, -1, -1, -1, -1, -1]

/-- The carry loop of both conversions, `b = b * mul + carry` in base
`base`. The digit array is kept from its last entry, the order in which the
reverse iterator walks it; the loop runs while a carry is left or `i` is
below `length`, and returns the array, the carry left over and `i`. -/
def carryLoop (base mul length : Nat) : List Nat → Nat → Nat → List Nat × Nat × Nat
  | [], carry, i => ([], carry, i)
  | d :: ds, carry, i =>
    if carry ≠ 0 ∨ i < length then
      let carry := carry + mul * d
      let r := carryLoop base mul length ds (carry / base) (i + 1)
      (carry % base :: r.1, r.2.1, r.2.2)
    else (d :: ds, carry, i)

/-- The character loop of `DecodeBase58`, up to the first space or the end
of the C string: each digit is multiplied into `b256`, and the result may
not grow past `max_ret_len` bytes with the `zeroes`. Returns the array, its
`length` and the characters after the digits. -/
def decodeLoop (max_ret_len zeroes : Nat) :
    List UInt8 → List Nat → Nat → Except String (Option (List Nat × Nat × List UInt8))
  | [], b256, length => .ok (some (b256, length, []))
  | c :: psz, b256, length =>
    if IsSpace c then .ok (some (b256, length, c :: psz))
    else
      let carry := mapBase58.getD c.toNat (-1)
      if carry = -1 then .ok none
      else
        let r := carryLoop 256 58 length b256 carry.toNat 0
        if r.2.1 ≠ 0 then .error "assert(carry == 0)"
        else if r.2.2 + zeroes > max_ret_len then .ok none
        else decodeLoop max_ret_len zeroes psz r.1 r.2.2

/-- `DecodeBase58(const char* psz, vch, max_ret_len)` on the characters of
the C string: `none` where it returns false. `b256` is kept from its last
entry, so its last `length` entries are the first `length` here. -/
def DecodeBase58 (psz : List UInt8) (max_ret_len : Nat) : Except String (Option (List UInt8)) :=
  -- Skip leading spaces.
  let psz := psz.dropWhile IsSpace
  -- Skip and count leading '1's.
  let zeroes := (psz.takeWhile (· == '1'.toUInt8)).length
  if zeroes > max_ret_len then .ok none
  else
    let psz := psz.drop zeroes
    -- Allocate enough space in big-endian base256 representation.
    let size := psz.length * 733 / 1000 + 1
    (decodeLoop max_ret_len zeroes psz (List.replicate size 0) 0).map fun
      | none => none
      | some (b256, length, psz) =>
        -- Skip trailing spaces; the string must end there.
        if psz.dropWhile IsSpace ≠ [] then none
        else some (List.replicate zeroes 0 ++ ((b256.take length).reverse.map UInt8.ofNat))

/-- The byte loop of `EncodeBase58`. -/
def encodeLoop : List UInt8 → List Nat → Nat → Except String (List Nat × Nat)
  | [], b58, length => .ok (b58, length)
  | byte :: bytes, b58, length =>
    let r := carryLoop 58 256 length b58 byte.toNat 0
    if r.2.1 ≠ 0 then .error "assert(carry == 0)" else encodeLoop bytes r.1 r.2.2

/-- `EncodeBase58`. -/
def EncodeBase58 (vch : List UInt8) : Except String (List UInt8) :=
  -- Skip & count leading zeroes.
  let zeroes := (vch.takeWhile (· == 0)).length
  let input := vch.drop zeroes
  -- Allocate enough space in big-endian base58 representation.
  let size := input.length * 138 / 100 + 1
  (encodeLoop input (List.replicate size 0) 0).map fun (b58, length) =>
    -- Skip leading zeroes in base58 result.
    let digits := (b58.take length).reverse.dropWhile (· == 0)
    List.replicate zeroes '1'.toUInt8 ++ digits.map fun d => pszBase58.getD d 0

section Check

variable (Hash : List UInt8 → base_blob 256)

/-- `EncodeBase58Check`: the data and the first four bytes of its hash. -/
def EncodeBase58Check (vchIn : List UInt8) : Except String (List UInt8) :=
  EncodeBase58 (vchIn ++ (Hash vchIn).data.take 4)

/-- `DecodeBase58Check(str, vchRet, max_ret_len)`. -/
def DecodeBase58Check (str : List UInt8) (max_ret_len : Nat) : Except String (Option (List UInt8)) :=
  if !ValidAsCString str then .ok none
  else
    (DecodeBase58 str
        (if max_ret_len > 2147483647 - 4 then 2147483647 else max_ret_len + 4)).map fun
      | none => none
      | some vchRet =>
        if vchRet.length < 4 then none
        -- re-calculate the checksum, ensure it matches the included 4-byte checksum
        else if (Hash (vchRet.take (vchRet.length - 4))).data.take 4 ≠
            vchRet.drop (vchRet.length - 4) then none
        else some (vchRet.take (vchRet.length - 4))

end Check

/-! ## The carry loop -/

/-- One pass of the carry loop multiplies the array's number by `mul` and
adds the carry. `i` ends at the first place at or past `length` where no
carry is left: past the old digits and past every digit of the new number. -/
theorem carryLoop_spec {base mul length : Nat} (hb : 1 < base) :
    ∀ (ds : List Nat) (carry i : Nat), (∀ x ∈ ds, x < base) → length - i ≤ ds.length →
      ofDigits base ds < base ^ (length - i) →
      ofDigits base ds * mul + carry < base ^ ds.length →
      ∃ ds', carryLoop base mul length ds carry i =
          (ds', 0, i + max (length - i) (digits base (ofDigits base ds * mul + carry)).length) ∧
        ds'.length = ds.length ∧ (∀ x ∈ ds', x < base) ∧
        ofDigits base ds' = ofDigits base ds * mul + carry
  | [], carry, i, _, hlen, _, hfit => by
    have hc : carry = 0 := by simpa using hfit
    subst hc
    refine ⟨[], ?_, rfl, by simp, by simp⟩
    simp only [carryLoop, ofDigits_nil, Nat.zero_mul, Nat.add_zero, digits_zero, List.length_nil]
    congr
    simp at hlen
    omega
  | d :: ds, carry, i, hlt, hlen, hold, hfit => by
    have hd : d < base := hlt d (by simp)
    rw [ofDigits_cons] at hold hfit ⊢
    simp only [List.length_cons] at hlen hfit
    by_cases hcond : carry ≠ 0 ∨ i < length
    · -- a digit is rewritten and the carry moves one place up
      set c := carry + mul * d with hc
      set W := ofDigits base ds * mul + c / base with hW
      have hT : (d + base * ofDigits base ds) * mul + carry = c % base + base * W := by
        have := Nat.mod_add_div c base
        rw [hW, hc] at *
        nlinarith
      have hold' : ofDigits base ds < base ^ (length - (i + 1)) := by
        rcases Nat.eq_zero_or_pos (length - i) with h0 | hpos
        · rw [h0, pow_zero] at hold
          have hV : base * ofDigits base ds = 0 := by omega
          rw [(Nat.mul_eq_zero.mp hV).resolve_left (by omega)]
          exact Nat.pow_pos (by omega)
        · have hpow : base ^ (length - i) = base * base ^ (length - (i + 1)) := by
            rw [show length - i = length - (i + 1) + 1 by omega, pow_succ, Nat.mul_comm]
          have hlt : base * ofDigits base ds < base * base ^ (length - (i + 1)) := by
            rw [← hpow]
            omega
          exact Nat.lt_of_mul_lt_mul_left hlt
      have hfit' : W < base ^ ds.length := by
        rw [hT, pow_succ] at hfit
        have hlt : base * W < base * base ^ ds.length := by
          rw [Nat.mul_comm base (base ^ _)]
          omega
        exact Nat.lt_of_mul_lt_mul_left hlt
      obtain ⟨ds', hrun, hlen', hlt', hval⟩ := carryLoop_spec hb ds (c / base) (i + 1)
        (fun x hx => hlt x (by simp [hx])) (by omega) hold' hfit'
      refine ⟨c % base :: ds', ?_, by simp [hlen'], ?_, ?_⟩
      · rw [carryLoop, if_pos hcond]
        simp only [← hc, hrun]
        congr 2
        -- the new number's digits: its lowest, then those of `W`
        rw [← hW, hT]
        rcases Nat.eq_zero_or_pos (c % base + base * W) with h0 | hpos
        · have hW0 : W = 0 := (Nat.mul_eq_zero.mp (by omega : base * W = 0)).resolve_left (by omega)
          rw [h0, hW0]
          simp only [digits_zero, List.length_nil]
          -- a zero result leaves no carry, so `i` was below `length`
          omega
        · rw [digits_def' hb hpos, List.length_cons,
            show (c % base + base * W) / base = W by
              rw [Nat.add_mul_div_left _ _ (by omega), Nat.div_eq_of_lt (Nat.mod_lt _ (by omega)),
                Nat.zero_add]]
          omega
      · intro x hx
        rcases List.mem_cons.mp hx with rfl | hx
        · exact Nat.mod_lt _ (by omega)
        · exact hlt' x hx
      · rw [ofDigits_cons, hval, hT]
    · -- no carry and past `length`: the rest of the array is zero and stays
      have hzero : d + base * ofDigits base ds = 0 := by
        have : length - i = 0 := by omega
        rw [this, pow_zero] at hold
        omega
      have hc : carry = 0 := by omega
      refine ⟨d :: ds, ?_, rfl, hlt, ?_⟩
      · rw [carryLoop, if_neg hcond, hzero, hc]
        simp only [Nat.zero_mul, Nat.add_zero, digits_zero, List.length_nil]
        congr
        omega
      · rw [ofDigits_cons, hzero, hc]
        simp

/-- Digits of a number below `base ^ size`, padded with zeros to the array's
size: the array between two passes of the loop. -/
theorem carryLoop_digitsAppend {base mul : Nat} (hb : 1 < base) (hmul : 0 < mul)
    {size v carry : Nat} (hfit : v * mul + carry < base ^ size) :
    carryLoop base mul (digits base v).length (digitsAppend base size v) carry 0 =
      (digitsAppend base size (v * mul + carry), 0, (digits base (v * mul + carry)).length) := by
  have hle : v ≤ v * mul + carry := le_add_right (Nat.le_mul_of_pos_right v hmul)
  have hv : v < base ^ size := lt_of_le_of_lt hle hfit
  have hlen : (digitsAppend base size v).length = size := Nat.length_digitsAppend hb size hv
  have hval : ofDigits base (digitsAppend base size v) = v := by
    rw [Nat.digitsAppend, Nat.ofDigits_append_replicate_zero, Nat.ofDigits_digits]
  obtain ⟨ds', hrun, hlen', hlt', hval'⟩ := carryLoop_spec hb (digitsAppend base size v) carry 0
    (fun x hx => Nat.lt_of_mem_digitsAppend hb size x hx)
    (by rw [hlen]; exact (Nat.digits_length_le_iff hb v).mpr hv)
    (by rw [hval]; exact Nat.lt_base_pow_length_digits hb)
    (by rw [hval, hlen]; exact hfit)
  -- the array after the pass is the only one of its size with its number
  have hds' : ds' = digitsAppend base size (v * mul + carry) := by
    rw [hval] at hval'
    rw [← hval', (Nat.setInvOn_digitsAppend_ofDigits hb size).1 ⟨hlen'.trans hlen, hlt'⟩]
  rw [hrun, hval, hds', Nat.zero_add, Nat.sub_zero,
    max_eq_right (Nat.le_length_digits_le base v _ hle)]

/-! ## Positional readings -/

/-- The number that big-endian digits spell. -/
def ofDigitsBE (b : Nat) (l : List Nat) : Nat := ofDigits b l.reverse

@[simp] theorem ofDigitsBE_nil (b : Nat) : ofDigitsBE b [] = 0 := rfl

theorem ofDigitsBE_cons (b d : Nat) (l : List Nat) :
    ofDigitsBE b (d :: l) = d * b ^ l.length + ofDigitsBE b l := by
  rw [ofDigitsBE, ofDigitsBE, List.reverse_cons, Nat.ofDigits_append, Nat.ofDigits_singleton,
    List.length_reverse]
  ring

theorem ofDigitsBE_lt {b : Nat} (hb : 1 < b) {l : List Nat} (hl : ∀ x ∈ l, x < b) :
    ofDigitsBE b l < b ^ l.length := by
  rw [ofDigitsBE, ← List.length_reverse]
  exact Nat.ofDigits_lt_base_pow_length hb (by simpa using hl)

/-- Big-endian digits without a leading zero are the digits of their number. -/
theorem digits_ofDigitsBE {b : Nat} (hb : 1 < b) {l : List Nat} (hl : ∀ x ∈ l, x < b)
    (hhead : ∀ h : l ≠ [], l.head h ≠ 0) : digits b (ofDigitsBE b l) = l.reverse :=
  Nat.digits_ofDigits b hb l.reverse (by simpa using hl) fun h => by
    rw [List.getLast_reverse]; exact hhead _

/-- The digits of a number read from the most significant have no leading zero. -/
theorem reverse_digits_head_ne_zero {b n d : Nat} {D : List Nat}
    (h : (digits b n).reverse = d :: D) : d ≠ 0 := by
  have hn : n ≠ 0 := by rintro rfl; simp at h
  have hne : digits b n ≠ [] := Nat.digits_ne_nil_iff_ne_zero.mpr hn
  have hlast : (digits b n).getLast? = some d := by rw [← List.head?_reverse, h]; rfl
  rw [List.getLast?_eq_some_getLast hne] at hlast
  exact Option.some.inj hlast ▸ Nat.getLast_digit_ne_zero b hn

theorem dropWhile_reverse_digits (b n : Nat) :
    (digits b n).reverse.dropWhile (· == 0) = (digits b n).reverse := by
  cases h : (digits b n).reverse with
  | nil => rfl
  | cons x xs =>
    rw [List.dropWhile_cons_of_neg (by simpa using reverse_digits_head_ne_zero h)]

/-- `a ^ n` fits `n * p / q + 1` digits of base `b` when `a ^ q ≤ b ^ p`: the
sizes that both conversions allocate. -/
theorem pow_le_pow_div_add_one {a b p q : Nat} (hq : 0 < q) (hb : 0 < b) (h : a ^ q ≤ b ^ p)
    (n : Nat) : a ^ n ≤ b ^ (n * p / q + 1) := by
  apply (Nat.pow_le_pow_iff_left (n := q) hq.ne').mp
  have hexp : n * p ≤ (n * p / q + 1) * q := by
    have := Nat.div_add_mod (n * p) q
    have := Nat.mod_lt (n * p) hq
    rw [Nat.add_mul, Nat.one_mul, Nat.mul_comm (n * p / q) q]
    omega
  calc (a ^ n) ^ q = (a ^ q) ^ n := by rw [← pow_mul, ← pow_mul, Nat.mul_comm]
    _ ≤ (b ^ p) ^ n := Nat.pow_le_pow_left h n
    _ = b ^ (n * p) := by rw [← pow_mul, Nat.mul_comm]
    _ ≤ b ^ ((n * p / q + 1) * q) := Nat.pow_le_pow_right hb hexp
    _ = (b ^ (n * p / q + 1)) ^ q := by rw [pow_mul]

/-! ## Encoding -/

/-- What `EncodeBase58` writes: a `'1'` for each leading zero byte, then the
base-58 digits of the number the other bytes spell. -/
def base58Encoded (vch : List UInt8) : List UInt8 :=
  let zeroes := (vch.takeWhile (· == 0)).length
  List.replicate zeroes '1'.toUInt8 ++
    (digits 58 (ofDigitsBE 256 ((vch.drop zeroes).map UInt8.toNat))).reverse.map
      fun d => pszBase58.getD d 0

theorem encodeLoop_spec {size : Nat} : ∀ (bytes : List UInt8) (N : Nat),
    N * 256 ^ bytes.length + ofDigitsBE 256 (bytes.map UInt8.toNat) < 58 ^ size →
    encodeLoop bytes (digitsAppend 58 size N) (digits 58 N).length =
      .ok (digitsAppend 58 size (N * 256 ^ bytes.length + ofDigitsBE 256 (bytes.map UInt8.toNat)),
        (digits 58 (N * 256 ^ bytes.length + ofDigitsBE 256 (bytes.map UInt8.toNat))).length)
  | [], N, _ => by simp [encodeLoop]
  | byte :: bytes, N, hfit => by
    -- the number after this byte, and the same total from it
    have htotal : N * 256 ^ (bytes.length + 1) + ofDigitsBE 256 ((byte :: bytes).map UInt8.toNat) =
        (N * 256 + byte.toNat) * 256 ^ bytes.length + ofDigitsBE 256 (bytes.map UInt8.toNat) := by
      rw [List.map_cons, ofDigitsBE_cons, List.length_map]
      ring
    rw [List.length_cons, htotal] at hfit ⊢
    have hstep : N * 256 + byte.toNat < 58 ^ size :=
      lt_of_le_of_lt (le_add_right (Nat.le_mul_of_pos_right _ (Nat.pow_pos (by norm_num)))) hfit
    rw [encodeLoop, carryLoop_digitsAppend (by norm_num) (by norm_num) hstep]
    exact encodeLoop_spec bytes _ hfit

theorem EncodeBase58_eq (vch : List UInt8) : EncodeBase58 vch = .ok (base58Encoded vch) := by
  unfold EncodeBase58 base58Encoded
  dsimp only
  set input := vch.drop (vch.takeWhile (· == 0)).length
  -- the array starts as the digits of zero, and the bytes' number fits it
  have hstart : List.replicate (input.length * 138 / 100 + 1) 0 =
      digitsAppend 58 (input.length * 138 / 100 + 1) 0 := by simp [Nat.digitsAppend]
  have hfit : 0 * 256 ^ input.length + ofDigitsBE 256 (input.map UInt8.toNat) <
      58 ^ (input.length * 138 / 100 + 1) := by
    rw [Nat.zero_mul, Nat.zero_add]
    calc ofDigitsBE 256 (input.map UInt8.toNat) < 256 ^ input.length := by
          simpa using ofDigitsBE_lt (by norm_num) (l := input.map UInt8.toNat)
            (by intro x hx; obtain ⟨a, -, rfl⟩ := List.mem_map.mp hx; exact a.toNat_lt)
      _ ≤ 58 ^ (input.length * 138 / 100 + 1) :=
          pow_le_pow_div_add_one (by norm_num) (by norm_num) (by norm_num) _
  have hrun := encodeLoop_spec input 0 hfit
  simp only [digits_zero, List.length_nil, Nat.zero_mul, Nat.zero_add] at hrun
  rw [hstart, hrun]
  simp only [Except.map, Nat.digitsAppend, List.take_left' rfl, dropWhile_reverse_digits]

/-! ## Decoding -/

/-- The digit of a character as the decoder reads `mapBase58`; `none`
outside the alphabet. -/
def base58Digit (c : UInt8) : Option Nat :=
  let d := mapBase58.getD c.toNat (-1)
  if d = -1 then none else some d.toNat

/-- What `DecodeBase58` returns, read positionally: after the leading
spaces a zero byte for each `'1'`, then the bytes of the number that the
digits up to the next space spell, and only spaces after them. -/
def base58Decoded (psz : List UInt8) (max_ret_len : Nat) : Option (List UInt8) :=
  let psz := psz.dropWhile IsSpace
  let zeroes := (psz.takeWhile (· == '1'.toUInt8)).length
  let psz := psz.drop zeroes
  match (psz.takeWhile fun c => !IsSpace c).mapM base58Digit with
  | none => none
  | some ds =>
    if max_ret_len < zeroes + (digits 256 (ofDigitsBE 58 ds)).length ∨
        (psz.dropWhile fun c => !IsSpace c).dropWhile IsSpace ≠ [] then none
    else some (List.replicate zeroes 0 ++ (digits 256 (ofDigitsBE 58 ds)).reverse.map UInt8.ofNat)

/-- The alphabet, character by character: each character's digit, its place
in `pszBase58`, and that it is neither a space nor NUL; `'1'` alone has digit
zero. -/
theorem base58Digit_table : ∀ n < 256, ∀ d ∈ base58Digit (UInt8.ofNat n),
    d < 58 ∧ pszBase58.getD d 0 = UInt8.ofNat n ∧ IsSpace (UInt8.ofNat n) = false ∧
        UInt8.ofNat n ≠ 0 ∧ (d = 0 ↔ UInt8.ofNat n = '1'.toUInt8) := by
  decide +kernel

theorem base58Digit_some {c : UInt8} {d : Nat} (h : base58Digit c = some d) :
    d < 58 ∧ pszBase58.getD d 0 = c ∧ IsSpace c = false ∧ c ≠ 0 ∧ (d = 0 ↔ c = '1'.toUInt8) := by
  have := base58Digit_table c.toNat c.toNat_lt d
  rw [UInt8.ofNat_toNat] at this
  exact this h

theorem base58Digit_pszBase58 : ∀ d < 58, base58Digit (pszBase58.getD d 0) = some d := by
  decide +kernel

theorem decodeLoop_spec {max_ret_len zeroes size : Nat} : ∀ (psz : List UInt8) (N : Nat),
    (N + 1) * 58 ^ psz.length ≤ 256 ^ size → (digits 256 N).length + zeroes ≤ max_ret_len →
    decodeLoop max_ret_len zeroes psz (digitsAppend 256 size N) (digits 256 N).length =
      .ok (match (psz.takeWhile fun c => !IsSpace c).mapM base58Digit with
        | none => none
        | some ds =>
          if (digits 256 (N * 58 ^ ds.length + ofDigitsBE 58 ds)).length + zeroes ≤ max_ret_len then
            some (digitsAppend 256 size (N * 58 ^ ds.length + ofDigitsBE 58 ds),
              (digits 256 (N * 58 ^ ds.length + ofDigitsBE 58 ds)).length,
              psz.dropWhile fun c => !IsSpace c)
          else none)
  | [], N, _, hmax => by simp [decodeLoop, hmax]
  | c :: psz, N, hfit, hmax => by
    rw [decodeLoop]
    by_cases hsp : IsSpace c = true
    · -- a space ends the digits
      rw [if_pos hsp, List.takeWhile_cons_of_neg (by simp [hsp]),
        List.dropWhile_cons_of_neg (by simp [hsp])]
      simp [hmax]
    rw [if_neg hsp, List.takeWhile_cons_of_pos (by simpa using hsp),
      List.dropWhile_cons_of_pos (by simpa using hsp), List.mapM_cons]
    cases hd : base58Digit c with
    | none =>
      have hm : mapBase58.getD c.toNat (-1) = -1 := by
        simp only [base58Digit] at hd
        split at hd
        · assumption
        · simp at hd
      dsimp only
      rw [if_pos hm]
      simp
    | some d =>
      obtain ⟨hd58, -⟩ := base58Digit_some hd
      have hm : mapBase58.getD c.toNat (-1) ≠ -1 ∧ (mapBase58.getD c.toNat (-1)).toNat = d := by
        simp only [base58Digit] at hd
        split at hd
        · simp at hd
        · exact ⟨by assumption, Option.some.inj hd⟩
      -- the number after this digit, and the same total from it
      have hpow : (N + 1) * 58 ^ (psz.length + 1) = (N + 1) * 58 * 58 ^ psz.length := by ring
      have hstep : N * 58 + d < 256 ^ size := by
        rw [List.length_cons, hpow] at hfit
        have : (N + 1) * 58 ≤ (N + 1) * 58 * 58 ^ psz.length :=
          Nat.le_mul_of_pos_right _ (Nat.pow_pos (by norm_num))
        omega
      have htotal : ∀ ds : List Nat, N * 58 ^ (d :: ds).length + ofDigitsBE 58 (d :: ds) =
          (N * 58 + d) * 58 ^ ds.length + ofDigitsBE 58 ds := by
        intro ds
        rw [ofDigitsBE_cons, List.length_cons]
        ring
      dsimp only
      rw [if_neg hm.1, hm.2, carryLoop_digitsAppend (by norm_num) (by norm_num) hstep]
      simp only [ne_eq, not_true_eq_false, if_false, gt_iff_lt]
      by_cases hlen : max_ret_len < (digits 256 (N * 58 + d)).length + zeroes
      · -- the bytes grow past the limit, and only grow from here
        rw [if_pos hlen]
        cases hrest : (psz.takeWhile fun c => !IsSpace c).mapM base58Digit with
        | none => rfl
        | some ds =>
          have hmono := Nat.le_length_digits_le 256 (N * 58 + d)
            ((N * 58 + d) * 58 ^ ds.length + ofDigitsBE 58 ds)
            (le_add_right (Nat.le_mul_of_pos_right _ (Nat.pow_pos (by norm_num))))
          simp only [Option.bind_eq_bind, Option.bind_some, Option.pure_def, htotal]
          rw [if_neg (by omega)]
      · rw [if_neg hlen, decodeLoop_spec psz (N * 58 + d) (by rw [List.length_cons, hpow] at hfit; nlinarith)
          (by omega)]
        cases hrest : (psz.takeWhile fun c => !IsSpace c).mapM base58Digit with
        | none => rfl
        | some ds => simp only [Option.bind_eq_bind, Option.bind_some, Option.pure_def, htotal]

theorem DecodeBase58_eq (psz : List UInt8) (max_ret_len : Nat) :
    DecodeBase58 psz max_ret_len = .ok (base58Decoded psz max_ret_len) := by
  unfold DecodeBase58 base58Decoded
  dsimp only
  set zeroes := ((psz.dropWhile IsSpace).takeWhile (· == '1'.toUInt8)).length
  set rest := (psz.dropWhile IsSpace).drop zeroes
  by_cases hz : zeroes > max_ret_len
  · -- too many leading '1's: both refuse
    rw [if_pos hz]
    cases (rest.takeWhile fun c => !IsSpace c).mapM base58Digit with
    | none => rfl
    | some ds =>
      dsimp only
      rw [if_pos (Or.inl (by omega))]
  · rw [if_neg hz]
    set size := rest.length * 733 / 1000 + 1
    -- every prefix of the digits fits the array
    have hcap : (0 + 1) * 58 ^ rest.length ≤ 256 ^ size := by
      rw [Nat.zero_add, Nat.one_mul]
      exact pow_le_pow_div_add_one (by norm_num) (by norm_num) (by decide +kernel) _
    have hstart : List.replicate size 0 = digitsAppend 256 size 0 := by simp [Nat.digitsAppend]
    have hrun := @decodeLoop_spec max_ret_len zeroes size rest 0 hcap (by simp; omega)
    simp only [digits_zero, List.length_nil, Nat.zero_mul, Nat.zero_add] at hrun
    rw [hstart, hrun]
    cases (rest.takeWhile fun c => !IsSpace c).mapM base58Digit with
    | none => rfl
    | some ds =>
      simp only [Except.map]
      by_cases hlen : (digits 256 (ofDigitsBE 58 ds)).length + zeroes ≤ max_ret_len
      · rw [if_pos hlen]
        simp only [Nat.digitsAppend, List.take_left' rfl]
        by_cases hend : (rest.dropWhile fun c => !IsSpace c).dropWhile IsSpace ≠ []
        · rw [if_pos hend, if_pos (Or.inr hend)]
        · rw [if_neg hend, if_neg (not_or.mpr ⟨by omega, hend⟩)]
      · rw [if_neg hlen, if_pos (Or.inl (by omega))]

/-! ## Round trips -/

theorem pszBase58_char {d : Nat} (hd : d < 58) :
    IsSpace (pszBase58.getD d 0) = false ∧ pszBase58.getD d 0 ≠ 0 ∧
      (d = 0 ↔ pszBase58.getD d 0 = '1'.toUInt8) := by
  obtain ⟨-, -, h⟩ := base58Digit_some (base58Digit_pszBase58 d hd)
  exact h

theorem mapM_base58Digit_pszBase58 :
    ∀ {D : List Nat}, (∀ d ∈ D, d < 58) → (D.map fun d => pszBase58.getD d 0).mapM base58Digit = some D
  | [], _ => rfl
  | d :: D, hD => by
    rw [List.map_cons, List.mapM_cons, base58Digit_pszBase58 d (hD d (by simp)),
      mapM_base58Digit_pszBase58 fun x hx => hD x (by simp [hx])]
    rfl

/-- A string's leading run of one value, and the rest. -/
theorem eq_replicate_append_dropWhile {α : Type} [BEq α] [LawfulBEq α] (a : α) (l : List α) :
    l = List.replicate (l.takeWhile (· == a)).length a ++ l.dropWhile (· == a) := by
  rw [← takeWhile_beq, List.takeWhile_append_dropWhile]

/-- Base-58 digits read back: decoding what `EncodeBase58` writes gives the
bytes back, when they are few enough. -/
theorem base58Decoded_base58Encoded {vch : List UInt8} {max_ret_len : Nat}
    (hmax : vch.length ≤ max_ret_len) : base58Decoded (base58Encoded vch) max_ret_len = some vch := by
  set zeroes := (vch.takeWhile (· == 0)).length
  have hinput : vch.drop zeroes = vch.dropWhile (· == 0) := drop_length_takeWhile vch
  set input := vch.dropWhile (· == 0)
  have hsplit : vch = List.replicate zeroes 0 ++ input := eq_replicate_append_dropWhile 0 vch
  -- the number the bytes after the zeros spell has exactly their digits
  set N := ofDigitsBE 256 (input.map UInt8.toNat)
  have h256 : digits 256 N = (input.map UInt8.toNat).reverse := by
    refine digits_ofDigitsBE (by norm_num) (fun x hx => ?_) fun h => ?_
    · obtain ⟨a, -, rfl⟩ := List.mem_map.mp hx; exact a.toNat_lt
    · rw [List.head_map]
      intro h0
      exact head_dropWhile_beq_ne 0 (l := vch) (fun he => h (by rw [show input = [] from he, List.map_nil])) (UInt8.toNat_inj.mp (by simpa using h0))
  set D := (digits 58 N).reverse with hDdef
  have hD : ∀ d ∈ D, d < 58 := fun d hd =>
    Nat.digits_lt_base (by norm_num) (List.mem_reverse.mp hd)
  set S := D.map fun d => pszBase58.getD d 0 with hSdef
  have hS : ∀ c ∈ S, IsSpace c = false := by
    intro c hc
    obtain ⟨d, hd, rfl⟩ := List.mem_map.mp hc
    exact (pszBase58_char (hD d hd)).1
  -- the encoded string: no spaces, and exactly `zeroes` leading '1's
  have hnotspace : ∀ c ∈ List.replicate zeroes '1'.toUInt8 ++ S, IsSpace c = false := by
    intro c hc
    rcases List.mem_append.mp hc with hc | hc
    · rw [List.eq_of_mem_replicate hc]; decide
    · exact hS c hc
  have hrun : (List.replicate zeroes '1'.toUInt8 ++ S).takeWhile (· == '1'.toUInt8) =
      List.replicate zeroes '1'.toUInt8 := by
    rw [List.takeWhile_append_of_pos (fun x hx => by simp [List.eq_of_mem_replicate hx])]
    cases hD' : D with
    | nil => simp [hSdef, hD']
    | cons d D' =>
      have hd0 : d ≠ 0 := reverse_digits_head_ne_zero (hDdef ▸ hD')
      have hd58 : d < 58 := hD d (by simp [hD'])
      rw [hSdef, hD', List.map_cons, List.takeWhile_cons_of_neg, List.append_nil]
      simpa using fun h => hd0 ((pszBase58_char hd58).2.2.mpr h)
  have hval : ofDigitsBE 58 D = N := by
    rw [ofDigitsBE, List.reverse_reverse, Nat.ofDigits_digits]
  have hlen : ¬ max_ret_len < zeroes + (digits 256 N).length := by
    rw [h256, List.length_reverse, List.length_map]
    have := congrArg List.length hsplit
    simp only [List.length_append, List.length_replicate] at this
    omega
  have hbytes : List.replicate zeroes 0 ++ (digits 256 N).reverse.map UInt8.ofNat = vch := by
    rw [h256, List.reverse_reverse, List.map_map,
      show UInt8.ofNat ∘ UInt8.toNat = id from funext fun _ => UInt8.ofNat_toNat, List.map_id]
    exact hsplit.symm
  unfold base58Encoded base58Decoded
  dsimp only
  rw [hinput, dropWhile_eq_self hnotspace, hrun, List.length_replicate, List.drop_left' (by simp),
    takeWhile_eq_self (fun x hx => by simp [hS x hx]),
    dropWhile_eq_nil (p := fun c => !IsSpace c) (fun x hx => by simp [hS x hx]),
    mapM_base58Digit_pszBase58 hD]
  simp only [List.dropWhile_nil, ne_eq, not_true_eq_false, or_false, hval, hlen, if_false, hbytes]

theorem mapM_base58Digit_eq_some : ∀ {cs : List UInt8} {ds : List Nat},
    cs.mapM base58Digit = some ds → cs = ds.map (fun d => pszBase58.getD d 0) ∧ ∀ d ∈ ds, d < 58
  | [], ds, h => by
    obtain rfl : ds = [] := by simpa using h.symm
    simp
  | c :: cs, ds, h => by
    rw [List.mapM_cons] at h
    cases hc : base58Digit c with
    | none => simp [hc] at h
    | some d =>
      cases hcs : cs.mapM base58Digit with
      | none => simp [hc, hcs] at h
      | some ds' =>
        obtain rfl : ds = d :: ds' := by simpa [hc, hcs] using h.symm
        obtain ⟨hd58, hpsz, -⟩ := base58Digit_some hc
        obtain ⟨rfl, hds'⟩ := mapM_base58Digit_eq_some hcs
        refine ⟨by rw [List.map_cons, hpsz], fun x hx => ?_⟩
        rcases List.mem_cons.mp hx with rfl | hx
        · exact hd58
        · exact hds' x hx

/-- Base-58 strings written back: encoding what `DecodeBase58` returns gives
the string without the whitespace around it. -/
theorem base58Encoded_base58Decoded {psz : List UInt8} {max_ret_len : Nat} {vch : List UInt8}
    (h : base58Decoded psz max_ret_len = some vch) : base58Encoded vch = TrimString psz := by
  unfold base58Decoded at h
  dsimp only at h
  set body := psz.dropWhile IsSpace with hbody
  set zeroes := (body.takeWhile (· == '1'.toUInt8)).length
  have hdigits : body.drop zeroes = body.dropWhile (· == '1'.toUInt8) := drop_length_takeWhile body
  rw [hdigits] at h
  set cs := (body.dropWhile (· == '1'.toUInt8)).takeWhile fun c => !IsSpace c with hcsdef
  set rest := (body.dropWhile (· == '1'.toUInt8)).dropWhile fun c => !IsSpace c with hrestdef
  cases hmap : cs.mapM base58Digit with
  | none => simp [hmap] at h
  | some ds =>
    simp only [hmap] at h
    split at h
    · simp at h
    rename_i hcond
    obtain rfl := (Option.some.inj h).symm
    have hend : rest.dropWhile IsSpace = [] := by
      by_contra hne; exact hcond (Or.inr hne)
    obtain ⟨hcs, hds⟩ := mapM_base58Digit_eq_some hmap
    -- the digits do not start with a '1', so the number has exactly them
    have hhead : ∀ h : ds ≠ [], ds.head h ≠ 0 := by
      intro hne h0
      obtain ⟨d, ds', rfl⟩ := List.exists_cons_of_ne_nil hne
      have hd : pszBase58.getD d 0 = '1'.toUInt8 :=
        (pszBase58_char (hds d (by simp))).2.2.mp (by simpa using h0)
      have hne' : body.dropWhile (· == '1'.toUInt8) ≠ [] := by
        intro hnil; simp [hcsdef, hnil] at hcs
      have hfirst := head_dropWhile_beq_ne '1'.toUInt8 hne'
      obtain ⟨x, xs, hx⟩ := List.exists_cons_of_ne_nil hne'
      have hcx : cs = (pszBase58.getD d 0) :: (ds'.map fun d => pszBase58.getD d 0) := by
        simpa using hcs
      rw [hcsdef, hx, List.takeWhile_cons] at hcx
      split at hcx
      · simp only [List.cons.injEq] at hcx
        simp only [hx, List.head_cons] at hfirst
        exact hfirst (hcx.1.trans hd)
      · simp at hcx
    set N := ofDigitsBE 58 ds
    have h58 : digits 58 N = ds.reverse := digits_ofDigitsBE (by norm_num) hds hhead
    have h256lt : ∀ x ∈ (digits 256 N).reverse, x < 256 := fun x hx =>
      Nat.digits_lt_base (by norm_num) (List.mem_reverse.mp hx)
    -- the decoded bytes after the zeros start with a nonzero byte
    set B := (digits 256 N).reverse.map UInt8.ofNat with hBdef
    have hB : B.map UInt8.toNat = (digits 256 N).reverse := by
      rw [List.map_map]
      exact List.map_congr_left (l := (digits 256 N).reverse) (fun x hx => by
        simp [Nat.mod_eq_of_lt (h256lt x hx)]) |>.trans (List.map_id _)
    have hBrun : (List.replicate zeroes (0 : UInt8) ++ B).takeWhile (· == 0) =
        List.replicate zeroes 0 := by
      rw [List.takeWhile_append_of_pos (fun x hx => by simp [List.eq_of_mem_replicate hx])]
      cases hr : (digits 256 N).reverse with
      | nil => rw [hBdef, hr]; simp
      | cons x xs =>
        have hx0 := reverse_digits_head_ne_zero hr
        have hx256 : x < 256 := h256lt x (by simp [hr])
        rw [hBdef, hr, List.map_cons, List.takeWhile_cons_of_neg, List.append_nil]
        intro h0
        apply hx0
        have := congrArg UInt8.toNat (beq_iff_eq.mp h0)
        simpa [Nat.mod_eq_of_lt hx256] using this
    have hBval : ofDigitsBE 256 (B.map UInt8.toNat) = N := by
      rw [hB, ofDigitsBE, List.reverse_reverse, Nat.ofDigits_digits]
    -- the string is spaces, the core, then spaces
    have hpsz : psz = psz.takeWhile IsSpace ++ (List.replicate zeroes '1'.toUInt8 ++ cs) ++ rest := by
      rw [List.append_assoc, List.append_assoc, hcsdef, hrestdef, List.takeWhile_append_dropWhile,
        ← eq_replicate_append_dropWhile, List.takeWhile_append_dropWhile]
    unfold base58Encoded
    dsimp only
    rw [hBrun, List.length_replicate, List.drop_left' (by simp), hBval, h58]
    simp only [List.reverse_reverse, ← hcs]
    conv_rhs => rw [hpsz]
    refine (TrimString_eq (fun x hx => of_mem_takeWhile hx) (fun x hx => ?_)
      (all_of_dropWhile_eq_nil hend)).symm
    rcases List.mem_append.mp hx with hx | hx
    · rw [List.eq_of_mem_replicate hx]; decide
    · have := of_mem_takeWhile (hcsdef ▸ hx)
      simpa using this

/-! ## Strings of the alphabet

Every string of base-58 characters, with whitespace around it, decodes: to
bytes that do not depend on the limit, returned exactly when they are no
more than the limit, and that encode back to the string. -/

theorem mem_pszBase58 {c : UInt8} (hc : c ∈ pszBase58) : ∃ d < 58, pszBase58.getD d 0 = c := by
  obtain ⟨i, hi, rfl⟩ := List.mem_iff_getElem.mp hc
  have hlen : pszBase58.length = 58 := rfl
  refine ⟨i, hlen ▸ hi, ?_⟩
  rw [List.getD_eq_getElem?_getD, List.getElem?_eq_getElem hi]
  rfl

theorem getD_mem_pszBase58 {d : Nat} (hd : d < 58) : pszBase58.getD d 0 ∈ pszBase58 := by
  have hlen : pszBase58.length = 58 := rfl
  rw [List.getD_eq_getElem?_getD, List.getElem?_eq_getElem (hlen ▸ hd)]
  exact List.getElem_mem _

/-- A character of the alphabet has a digit and is neither a space nor NUL. -/
theorem base58Digit_of_mem {c : UInt8} (hc : c ∈ pszBase58) :
    (∃ d, base58Digit c = some d) ∧ IsSpace c = false ∧ c ≠ 0 := by
  obtain ⟨d, hd, rfl⟩ := mem_pszBase58 hc
  obtain ⟨hsp, hnul, -⟩ := pszBase58_char hd
  exact ⟨⟨d, base58Digit_pszBase58 d hd⟩, hsp, hnul⟩

theorem mapM_base58Digit_of_mem : ∀ {cs : List UInt8}, (∀ c ∈ cs, c ∈ pszBase58) →
    ∃ ds, cs.mapM base58Digit = some ds
  | [], _ => ⟨[], rfl⟩
  | c :: cs, h => by
    obtain ⟨⟨d, hd⟩, -, -⟩ := base58Digit_of_mem (h c List.mem_cons_self)
    obtain ⟨ds, hds⟩ := mapM_base58Digit_of_mem fun x hx => h x (List.mem_cons_of_mem c hx)
    exact ⟨d :: ds, by rw [List.mapM_cons, hd, hds]; rfl⟩

/-- `EncodeBase58` writes only characters of the alphabet. -/
theorem base58Encoded_mem (vch : List UInt8) : ∀ c ∈ base58Encoded vch, c ∈ pszBase58 := by
  intro c hc
  rcases List.mem_append.mp hc with hc | hc
  · rw [List.eq_of_mem_replicate hc]
    decide
  · obtain ⟨d, hd, rfl⟩ := List.mem_map.mp hc
    exact getD_mem_pszBase58 (Nat.digits_lt_base (by norm_num) (List.mem_reverse.mp hd))

/-- A space is not the digit `'1'`. -/
theorem ne_one_of_isSpace {c : UInt8} (hc : IsSpace c = true) : (c == '1'.toUInt8) = false := by
  rw [beq_eq_false_iff_ne]
  rintro rfl
  revert hc
  decide

/-- A string of the alphabet, with spaces around it: the decoder reads the
same bytes whatever the limit, and returns them exactly when they fit it. -/
theorem base58Decoded_of_mem {pre core post : List UInt8} (hpre : ∀ c ∈ pre, IsSpace c = true)
    (hcore : ∀ c ∈ core, c ∈ pszBase58) (hpost : ∀ c ∈ post, IsSpace c = true) :
    ∃ out, ∀ max_ret_len, base58Decoded (pre ++ core ++ post) max_ret_len =
      if out.length ≤ max_ret_len then some out else none := by
  have hns : ∀ c ∈ core, IsSpace c = false := fun c hc => (base58Digit_of_mem (hcore c hc)).2.1
  -- after the leading spaces: the core, then spaces
  obtain ⟨post', hbody, hpost'⟩ : ∃ post', (pre ++ core ++ post).dropWhile IsSpace = core ++ post' ∧
      ∀ c ∈ post', IsSpace c = true := by
    rw [List.append_assoc, List.dropWhile_append_of_pos hpre]
    cases core with
    | nil => exact ⟨[], by rw [List.nil_append, dropWhile_eq_nil hpost]; rfl, by simp⟩
    | cons c cs => exact ⟨post, List.dropWhile_cons_of_neg (by simp [hns c List.mem_cons_self]), hpost⟩
  set zeroes := (core.takeWhile (· == '1'.toUInt8)).length
  have hzeroes : ((core ++ post').takeWhile (· == '1'.toUInt8)).length = zeroes := by
    rw [takeWhile_append_of_forall_false fun c hc => ne_one_of_isSpace (hpost' c hc)]
  have hzle : zeroes ≤ core.length := (List.takeWhile_sublist _).length_le
  have hdigits : ∀ c ∈ core.drop zeroes, IsSpace c = false := fun c hc => hns c (List.mem_of_mem_drop hc)
  obtain ⟨ds, hds⟩ := mapM_base58Digit_of_mem fun c hc => hcore c (List.mem_of_mem_drop (i := zeroes) hc)
  refine ⟨List.replicate zeroes 0 ++ (digits 256 (ofDigitsBE 58 ds)).reverse.map UInt8.ofNat,
    fun max_ret_len => ?_⟩
  unfold base58Decoded
  dsimp only
  -- the digits run to the spaces, and only spaces follow them
  rw [hbody, hzeroes, List.drop_append_of_le_length hzle,
    takeWhile_append_of_forall_false (fun c hc => by simp [hpost' c hc]),
    takeWhile_eq_self (fun c hc => by simp [hdigits c hc]), hds,
    List.dropWhile_append_of_pos (fun c hc => by simp [hdigits c hc]),
    dropWhile_eq_self (p := fun c => !IsSpace c) (fun c hc => by simp [hpost' c hc]), dropWhile_eq_nil hpost']
  simp only [ne_eq, not_true_eq_false, or_false, List.length_append, List.length_replicate,
    List.length_map, List.length_reverse]
  by_cases hfit : max_ret_len < zeroes + (digits 256 (ofDigitsBE 58 ds)).length
  · rw [if_pos hfit, if_neg (by omega)]
  · rw [if_neg hfit, if_pos (by omega)]

/-- Decoding what `EncodeBase58` writes, for every limit. -/
theorem base58Decoded_base58Encoded_iff (vch : List UInt8) (max_ret_len : Nat) :
    base58Decoded (base58Encoded vch) max_ret_len = if vch.length ≤ max_ret_len then some vch else none := by
  obtain ⟨out, hout⟩ := base58Decoded_of_mem (show ∀ c ∈ ([] : List UInt8), IsSpace c = true by simp)
    (base58Encoded_mem vch) (show ∀ c ∈ ([] : List UInt8), IsSpace c = true by simp)
  simp only [List.nil_append, List.append_nil] at hout
  -- at the bytes' own length the decoder returns them, so they are `out`
  have hself := hout vch.length
  rw [base58Decoded_base58Encoded (le_refl _)] at hself
  have hout_eq : out = vch := by
    split at hself
    · exact (Option.some.inj hself).symm
    · cases hself
  rw [hout, hout_eq]

section Check

variable (Hash : List UInt8 → base_blob 256)

/-- Base58Check read back: the data comes back exactly when it fits, with its
four check bytes, the limit passed down to `DecodeBase58`, which is four more
than `max_ret_len` or `INT_MAX`. -/
theorem DecodeBase58Check_EncodeBase58Check (vch : List UInt8) (max_ret_len : Nat) :
    ∃ s, EncodeBase58Check Hash vch = .ok s ∧ DecodeBase58Check Hash s max_ret_len =
      .ok (if vch.length + 4 ≤ (if max_ret_len > 2147483647 - 4 then 2147483647 else max_ret_len + 4)
        then some vch else none) := by
  have hcheck : ((Hash vch).data.take 4).length = 4 := by simp [(Hash vch).size_eq]
  refine ⟨_, by rw [EncodeBase58Check, EncodeBase58_eq], ?_⟩
  -- no NUL in the string
  have hvalid : ValidAsCString (base58Encoded (vch ++ (Hash vch).data.take 4)) = true := by
    rw [ValidAsCString, takeWhile_eq_self fun c hc => by
      simpa using (base58Digit_of_mem (base58Encoded_mem _ c hc)).2.2]
    exact beq_self_eq_true _
  rw [DecodeBase58Check, hvalid, DecodeBase58_eq, base58Decoded_base58Encoded_iff]
  simp only [Bool.not_true, Bool.false_eq_true, if_false, List.length_append, hcheck]
  generalize (if max_ret_len > 2147483647 - 4 then 2147483647 else max_ret_len + 4) = limit
  by_cases hfit : vch.length + 4 ≤ limit
  · -- the check bytes are those of the data's hash
    have htake : (vch ++ (Hash vch).data.take 4).take (vch.length + 4 - 4) = vch := by
      rw [Nat.add_sub_cancel]
      exact List.take_left' rfl
    have hdrop : (vch ++ (Hash vch).data.take 4).drop (vch.length + 4 - 4) = (Hash vch).data.take 4 := by
      rw [Nat.add_sub_cancel]
      exact List.drop_left' rfl
    rw [if_pos hfit, if_pos hfit]
    simp only [Except.map, List.length_append, hcheck, htake, hdrop]
    rw [if_neg (by omega), if_neg (fun h => h rfl)]
  · rw [if_neg hfit, if_neg hfit]
    rfl

end Check

/-- With `max_ret_len` an `int`, data of `INT_MAX - 3` bytes or more never
reads back from Base58Check: the limit passed down is capped at `INT_MAX`. -/
theorem DecodeBase58Check_refuses_int_max (Hash : List UInt8 → base_blob 256) :
    ∃ s, EncodeBase58Check Hash (List.replicate 2147483644 0) = .ok s ∧
      DecodeBase58Check Hash s 2147483644 = .ok none := by
  obtain ⟨s, hs, hd⟩ := DecodeBase58Check_EncodeBase58Check Hash (List.replicate 2147483644 0) 2147483644
  refine ⟨s, hs, ?_⟩
  rw [hd, List.length_replicate, if_pos (by decide : 2147483644 > 2147483647 - 4), if_neg (by decide)]

end Palladium.Address
