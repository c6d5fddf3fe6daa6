import Palladium.Lib.BinaryField
import Palladium.Util.Strencodings
import Mathlib.Tactic.ComputeDegree
import Mathlib.Data.Nat.Bitwise

/-!
# Bech32

`PolyMod`, `ExpandHRP`, `VerifyChecksum`, `CreateChecksum`, `Encode` and
`Decode` (`bech32.cpp`) on strings as the bytes they hold.

`PolyMod` keeps the remainder modulo the generator `g` of a polynomial over
GF(32), its six coefficients of five bits packed in one word, and takes one
Horner step per input value. GF(32) is `(ZMod 2)[X]` modulo
`a ^ 5 + a ^ 3 + 1` (`BinaryField`), a word stands for its polynomial
through `polyOf`, and each step of the loop is the Horner step modulo `g`.
The checksum that `CreateChecksum` appends then makes `VerifyChecksum` hold,
and `Decode` reads back what `Encode` wrote, also in upper case, as long as
the human-readable part is not empty: `Decode` takes a separator at the
front for a failure.
-/

namespace Palladium.Util.Bech32

open Polynomial BinaryField

set_option autoImplicit false

/-! ## The source -/

/-- `CHARSET`, `"qpzry9x8gf2tvdw0s3jn54khce6mua7l"`: the character of each
five-bit value. -/
def CHARSET : List UInt8 :=
  [0x71, 0x70, 0x7a, 0x72, 0x79, 0x39, 0x78, 0x38, 0x67, 0x66, 0x32, 0x74, 0x76, 0x64, 0x77, 0x30,
    0x73, 0x33, 0x6a, 0x6e, 0x35, 0x34, 0x6b, 0x68, 0x63, 0x65, 0x36, 0x6d, 0x75, 0x61, 0x37, 0x6c]

/-- `CHARSET_REV`: the value of each ASCII character, `-1` for those that
are not in the character set. -/
def CHARSET_REV : List Int8 :=
  [-1, -1, -1, -1, -1, -1, -1, -1, -1, -1, -1, -1, -1, -1, -1, -1,
    -1, -1, -1, -1, -1, -1, -1, -1, -1, -1, -1, -1, -1, -1, -1, -1,
    -1, -1, -1, -1, -1, -1, -1, -1, -1, -1, -1, -1, -1, -1, -1, -1,
    15, -1, 10, 17, 21, 20, 26, 30,  7,  5, -1, -1, -1, -1, -1, -1,
    -1, 29, -1, 24, 13, 25,  9,  8, 23, -1, 18, 22, 31, 27, 19, -1,
     1,  0,  3, 16, 11, 28, 12, 14,  6,  4,  2, -1, -1, -1, -1, -1,
    -1, 29, -1, 24, 13, 25,  9,  8, 23, -1, 18, 22, 31, 27, 19, -1,
     1,  0,  3, 16, 11, 28, 12, 14,  6,  4,  2, -1, -1, -1, -1, -1]

/-- One pass of the loop of `PolyMod`: the word `c` of six coefficients
becomes that of `c(x) * x + v_i` modulo `g(x)`, the coefficient `c0` that
leaves the word added back as `c0 * k(x)`, one multiple `{2^n} k(x)` for
each set bit `n` of `c0`. -/
def PolyModStep (c : UInt32) (v_i : UInt8) : UInt32 :=
  let c0 : UInt8 := (c >>> 25).toUInt8
  let c := ((c &&& 0x1ffffff) <<< 5) ^^^ v_i.toUInt32
  let c := if c0 &&& 1 ≠ 0 then c ^^^ 0x3b6a57b2 else c
  let c := if c0 &&& 2 ≠ 0 then c ^^^ 0x26508e6d else c
  let c := if c0 &&& 4 ≠ 0 then c ^^^ 0x1ea119fa else c
  let c := if c0 &&& 8 ≠ 0 then c ^^^ 0x3d4233dd else c
  if c0 &&& 16 ≠ 0 then c ^^^ 0x2a1462b3 else c

/-- `PolyMod`: the loop from `c = 1`, the implicit leading coefficient. -/
def PolyMod (v : List UInt8) : UInt32 :=
  v.foldl PolyModStep 1

/-- `LowerCase`. -/
def LowerCase (c : UInt8) : UInt8 :=
  if c ≥ 65 ∧ c ≤ 90 then (c - 65) + 97 else c

/-- `ExpandHRP`: the high three bits of each character, a zero, then the
low five bits of each character; the source writes the same values into a
vector of `2 * hrp.size() + 1` entries by index. -/
def ExpandHRP (hrp : List UInt8) : List UInt8 :=
  hrp.map (fun c : UInt8 => c >>> 5) ++ [0] ++ hrp.map (fun c : UInt8 => c &&& 0x1f)

/-- `VerifyChecksum`. -/
def VerifyChecksum (hrp values : List UInt8) : Bool :=
  PolyMod (ExpandHRP hrp ++ values) == 1

/-- `CreateChecksum`: the six groups of `PolyMod` of the input with six
zeroes appended, exclusive or `1`, the highest group first. -/
def CreateChecksum (hrp values : List UInt8) : List UInt8 :=
  let enc := ExpandHRP hrp ++ values ++ List.replicate 6 0
  let mod := PolyMod enc ^^^ 1
  (List.range 6).map fun i => ((mod >>> (5 * (5 - i)).toUInt32) &&& 31).toUInt8

/-- `bech32::Encode`, its `assert` on upper-case letters in `hrp` an error.
A value of 32 or more indexes past the 32 characters of `CHARSET`, which
the source leaves undefined; the model reads a zero byte there, the
literal's terminator. -/
def Encode (hrp values : List UInt8) : Except String (List UInt8) :=
  if hrp.all fun c => c < 65 || c > 90 then
    let checksum := CreateChecksum hrp values
    let combined := values ++ checksum
    .ok (hrp ++ [49] ++ combined.map fun c => CHARSET.getD c.toNat 0)
  else .error "assert(c < 'A' || c > 'Z')"

/-- The first loop of `Decode`: whether the string has lower-case and
upper-case letters, or `none` when it has a character outside `33..126`. -/
def caseScan : List UInt8 → Bool → Bool → Option (Bool × Bool)
  | [], lower, upper => some (lower, upper)
  | c :: str, lower, upper =>
    if c ≥ 97 ∧ c ≤ 122 then caseScan str true upper
    else if c ≥ 65 ∧ c ≤ 90 then caseScan str lower true
    else if c < 33 ∨ c > 126 then none
    else caseScan str lower upper

/-- `std::string::rfind`: the position of the last `ch` of `str`. -/
def rfind (str : List UInt8) (ch : UInt8) : Option Nat :=
  (str.reverse.findIdx? (· == ch)).map fun i => str.length - 1 - i

/-- One pass of the second loop of `Decode`: the value of a character,
`none` when it is not in the character set. The first loop has kept every
character below 128, inside `CHARSET_REV`. -/
def charValue (c : UInt8) : Option UInt8 :=
  let rev := CHARSET_REV.getD c.toNat (-1)
  if rev = -1 then none else some rev.toUInt8

/-- The second loop of `Decode`: the value of each character after the
separator, `none` at the first that is not in the character set. -/
def readValues (str : List UInt8) : Option (List UInt8) :=
  str.mapM charValue

/-- `bech32::Decode`: `(hrp, data)`, or two empty strings on failure. -/
def Decode (str : List UInt8) : List UInt8 × List UInt8 :=
  match caseScan str false false with
  | none => ([], [])
  | some (lower, upper) =>
    if lower && upper then ([], []) else
    match rfind str 49 with
    | none => ([], [])
    | some pos =>
      if str.length > 90 ∨ pos = 0 ∨ pos + 7 > str.length then ([], []) else
      match readValues (str.drop (pos + 1)) with
      | none => ([], [])
      | some values =>
        let hrp := (str.take pos).map LowerCase
        if !VerifyChecksum hrp values then ([], []) else
        (hrp, values.take (values.length - 6))

example : CHARSET.length = 32 ∧ CHARSET_REV.length = 128 := ⟨rfl, rfl⟩

/-! ## GF(32) and the polynomial of a word -/

/-- `a ^ 5 + a ^ 3 + 1`: GF(32) is `(ZMod 2)[X]` modulo it, `{n}` the class
of the polynomial of the bits of `n`. -/
noncomputable def fieldModulus : (ZMod 2)[X] := X ^ 5 + X ^ 3 + 1

theorem degree_fieldModulus : fieldModulus.degree = 5 := by
  unfold fieldModulus
  compute_degree!

abbrev GF32 := AdjoinRoot fieldModulus

/-- `{n}`, the element of GF(32) that the low five bits of `n` stand for. -/
noncomputable def gf (n : Nat) : GF32 := embed fieldModulus 5 n

/-- Multiplication by `{2}` on five-bit values: a shift, reduced by
`a ^ 5 = a ^ 3 + 1` when the top bit leaves. -/
def xtime (x : Nat) : Nat :=
  if x.testBit 4 then ((x <<< 1) % 32) ^^^ 9 else (x <<< 1) % 32

theorem coeff_fieldModulus (i : Nat) : fieldModulus.coeff i = if i = 5 ∨ i = 3 ∨ i = 0 then 1 else 0 := by
  simp only [fieldModulus, coeff_add, coeff_X_pow, coeff_one]
  rcases Nat.lt_or_ge i 6 with hi | hi
  · interval_cases i <;> decide
  · simp [show i ≠ 5 by omega, show i ≠ 3 by omega, show i ≠ 0 by omega]

theorem bitsPoly_two : bitsPoly 5 2 = X := by
  ext i
  rw [coeff_bitsPoly, coeff_X]
  rcases Nat.lt_or_ge i 5 with hi | hi
  · interval_cases i <;> decide
  · rw [if_neg (by omega), if_neg (by omega)]

/-- The polynomial identity behind `xtime`, one coefficient at a time: the
low coefficients are a finite check over the 32 values. -/
theorem X_mul_bitsPoly (x : Nat) (hx : x < 32) :
    X * bitsPoly 5 x = bitsPoly 5 (xtime x) + if x.testBit 4 then fieldModulus else 0 := by
  ext i
  rw [coeff_add, apply_ite (fun p : (ZMod 2)[X] => p.coeff i), coeff_zero, coeff_fieldModulus, coeff_bitsPoly]
  rcases i with _ | n
  · rw [coeff_X_mul_zero]
    revert x; decide
  · rw [coeff_X_mul, coeff_bitsPoly]
    rcases Nat.lt_or_ge n 5 with hn | hn
    · revert x; interval_cases n <;> decide
    · simp [show ¬n < 5 by omega, show ¬n + 1 < 5 by omega, show n ≠ 4 by omega, show n ≠ 2 by omega]

theorem gf_two_mul {x : Nat} (hx : x < 32) : gf 2 * gf x = gf (xtime x) := by
  rw [gf, gf, gf, embed, embed, embed, ← map_mul, bitsPoly_two, X_mul_bitsPoly x hx, map_add]
  split
  · rw [AdjoinRoot.mk_self, add_zero]
  · rw [map_zero, add_zero]

theorem gf_xor (a b : Nat) : gf (a ^^^ b) = gf a + gf b := embed_xor fieldModulus 5 a b

theorem gf_mod (n : Nat) : gf (n % 32) = gf n :=
  embed_mod_two_pow fieldModulus 5 n

theorem gf_of_mod {n k : Nat} (h : n % 32 = k) : gf n = gf k := by
  rw [← gf_mod, h]

/-- The polynomial over GF(32) that a word of `PolyMod` holds: group `j` of
five bits is the coefficient of `x ^ j`. -/
noncomputable def polyOf (c : Nat) : GF32[X] := packedPoly fieldModulus 5 6 c

theorem coeff_polyOf (c j : Nat) : (polyOf c).coeff j = if j < 6 then gf (c >>> (5 * j)) else 0 :=
  coeff_packedPoly fieldModulus 5 6 c j

theorem polyOf_eq (c : Nat) :
    polyOf c = C (gf (c >>> 25)) * X ^ 5 + C (gf (c >>> 20)) * X ^ 4 + C (gf (c >>> 15)) * X ^ 3 +
      C (gf (c >>> 10)) * X ^ 2 + C (gf (c >>> 5)) * X + C (gf c) := by
  simp only [polyOf, packedPoly, Finset.sum_range_succ, Finset.sum_range_zero, gf]
  simp only [Nat.mul_zero, Nat.shiftRight_zero, pow_zero, pow_one, mul_one]
  ring

/-- The generator `g(x)` of the code, as the source's comment gives it. -/
noncomputable def generator : GF32[X] :=
  X ^ 6 + C (gf 29) * X ^ 5 + C (gf 22) * X ^ 4 + C (gf 20) * X ^ 3 + C (gf 21) * X ^ 2 + C (gf 29) * X + C (gf 18)

theorem generator_eq : generator = X ^ 6 + polyOf 0x3b6a57b2 := by
  rw [polyOf_eq, generator, gf_of_mod (show (0x3b6a57b2 >>> 25) % 32 = 29 by decide),
    gf_of_mod (show (0x3b6a57b2 >>> 20) % 32 = 22 by decide), gf_of_mod (show (0x3b6a57b2 >>> 15) % 32 = 20 by decide),
    gf_of_mod (show (0x3b6a57b2 >>> 10) % 32 = 21 by decide), gf_of_mod (show (0x3b6a57b2 >>> 5) % 32 = 29 by decide),
    gf_of_mod (show 0x3b6a57b2 % 32 = 18 by decide)]
  ring


instance : Nontrivial GF32 := AdjoinRoot.nontrivial fieldModulus (by rw [degree_fieldModulus]; decide)

theorem poly_two_eq_zero : (2 : GF32[X]) = 0 := by
  rw [← map_ofNat C 2, two_eq_zero, map_zero]

theorem gf_one : gf 1 = 1 := embed_one fieldModulus (by decide)

theorem degree_polyOf_lt (c : Nat) : (polyOf c).degree < 6 := degree_packedPoly_lt fieldModulus 5 6 c

theorem polyOf_xor (a b : Nat) : polyOf (a ^^^ b) = polyOf a + polyOf b := packedPoly_xor fieldModulus 5 6 a b

theorem polyOf_of_lt {v : Nat} (hv : v < 32) : polyOf v = C (gf v) := packedPoly_of_lt fieldModulus hv

theorem generator_monic : generator.Monic := by
  rw [generator_eq]
  exact monic_X_pow_add (degree_polyOf_lt _)

theorem natDegree_generator : generator.natDegree = 6 := by
  rw [generator_eq, natDegree_add_eq_left_of_degree_lt, natDegree_X_pow]
  rw [degree_X_pow]
  exact degree_polyOf_lt _

theorem degree_generator : generator.degree = 6 := by
  rw [degree_eq_natDegree generator_monic.ne_zero, natDegree_generator]
  rfl

/-- `k(x) = x ^ 6 mod g(x)`, the low coefficients of `g` in characteristic two. -/
theorem X_pow_six_modByMonic : X ^ 6 %ₘ generator = polyOf 0x3b6a57b2 := by
  have hsub : X ^ 6 - polyOf 0x3b6a57b2 = generator * 1 := by
    rw [generator_eq]
    linear_combination (-(polyOf 0x3b6a57b2)) * poly_two_eq_zero
  rw [modByMonic_eq_of_dvd_sub generator_monic ⟨1, hsub⟩, (modByMonic_eq_self_iff generator_monic).mpr]
  rw [degree_generator]
  exact degree_polyOf_lt _

theorem polyOf_two_mul {a b : Nat} (h : ∀ j < 6, (b >>> (5 * j)) % 32 = xtime ((a >>> (5 * j)) % 32)) :
    polyOf b = C (gf 2) * polyOf a := by
  ext j
  rw [coeff_C_mul, coeff_polyOf, coeff_polyOf]
  split
  · rw [← gf_mod, h j ‹_›, ← gf_two_mul (Nat.mod_lt _ (by decide)), gf_mod]
  · rw [mul_zero]

theorem gf_pow_two_succ {i : Nat} (hi : i < 4) : gf (2 ^ (i + 1)) = gf 2 * gf (2 ^ i) := by
  rw [gf_two_mul (by interval_cases i <;> decide)]
  congr 1
  interval_cases i <;> decide

theorem polyOf_constants :
    polyOf 0x3b6a57b2 = C (gf 1) * (X ^ 6 %ₘ generator) ∧ polyOf 0x26508e6d = C (gf 2) * (X ^ 6 %ₘ generator) ∧
      polyOf 0x1ea119fa = C (gf 4) * (X ^ 6 %ₘ generator) ∧ polyOf 0x3d4233dd = C (gf 8) * (X ^ 6 %ₘ generator) ∧
      polyOf 0x2a1462b3 = C (gf 16) * (X ^ 6 %ₘ generator) := by
  have h1 : polyOf 0x26508e6d = C (gf 2) * polyOf 0x3b6a57b2 := polyOf_two_mul (by decide)
  have h2 : polyOf 0x1ea119fa = C (gf 2) * polyOf 0x26508e6d := polyOf_two_mul (by decide)
  have h3 : polyOf 0x3d4233dd = C (gf 2) * polyOf 0x1ea119fa := polyOf_two_mul (by decide)
  have h4 : polyOf 0x2a1462b3 = C (gf 2) * polyOf 0x3d4233dd := polyOf_two_mul (by decide)
  rw [X_pow_six_modByMonic, gf_one, map_one, one_mul]
  refine ⟨rfl, h1, ?_, ?_, ?_⟩
  · rw [h2, h1, show (4 : Nat) = 2 ^ (1 + 1) from rfl, gf_pow_two_succ (by decide), map_mul, pow_one, mul_assoc]
  · rw [h3, h2, h1, show (8 : Nat) = 2 ^ (2 + 1) from rfl, gf_pow_two_succ (by decide), gf_pow_two_succ (by decide)]
    simp only [pow_one, map_mul]
    ring
  · rw [h4, h3, h2, h1, show (16 : Nat) = 2 ^ (3 + 1) from rfl, gf_pow_two_succ (by decide), gf_pow_two_succ (by decide),
      gf_pow_two_succ (by decide)]
    simp only [pow_one, map_mul]
    ring

/-! ## One pass of the loop -/

/-- What the five conditional exclusive ors of `PolyModStep` add for the
coefficient `c0`. -/
def generatorMultiple (c0 : Nat) : Nat :=
  (if c0.testBit 0 then 0x3b6a57b2 else 0) ^^^ (if c0.testBit 1 then 0x26508e6d else 0) ^^^
    (if c0.testBit 2 then 0x1ea119fa else 0) ^^^ (if c0.testBit 3 then 0x3d4233dd else 0) ^^^
    (if c0.testBit 4 then 0x2a1462b3 else 0)

theorem UInt8_and_ne_zero (x m : UInt8) {i : Nat} (hm : m.toNat = 2 ^ i) :
    x &&& m ≠ 0 ↔ x.toNat.testBit i = true := by
  rw [ne_eq, ← UInt8.toNat_inj, UInt8.toNat_and, hm, Nat.and_two_pow, UInt8.toNat_zero]
  cases x.toNat.testBit i <;> simp

theorem toNat_ite_xor (y k : UInt32) (p : Prop) [Decidable p] :
    (if p then y ^^^ k else y).toNat = y.toNat ^^^ if p then k.toNat else 0 := by
  split <;> simp

theorem toNat_PolyModStep (c : UInt32) (v : UInt8) (hc : c.toNat < 2 ^ 30) :
    (PolyModStep c v).toNat = ((c.toNat % 2 ^ 25) <<< 5 ^^^ v.toNat) ^^^ generatorMultiple (c.toNat >>> 25) := by
  -- the top coefficient `c0` is the word above bit 25, whole in a byte
  have hc0 : (c >>> 25).toUInt8.toNat = c.toNat >>> 25 := by
    rw [UInt32.toNat_toUInt8, UInt32.toNat_shiftRight, show (25 : UInt32).toNat % 32 = 25 from rfl]
    exact Nat.mod_eq_of_lt (by rw [Nat.shiftRight_eq_div_pow]; omega)
  have hbase : (((c &&& 0x1ffffff) <<< 5) ^^^ v.toUInt32).toNat = (c.toNat % 2 ^ 25) <<< 5 ^^^ v.toNat := by
    rw [UInt32.toNat_xor, UInt32.toNat_shiftLeft, UInt32.toNat_and, UInt8.toNat_toUInt32,
      show (0x1ffffff : UInt32).toNat = 2 ^ 25 - 1 from rfl, Nat.and_two_pow_sub_one_eq_mod,
      show (5 : UInt32).toNat % 32 = 5 from rfl, Nat.mod_eq_of_lt]
    rw [Nat.shiftLeft_eq]
    omega
  simp only [PolyModStep, toNat_ite_xor, hbase, UInt8_and_ne_zero _ 1 (show (1 : UInt8).toNat = 2 ^ 0 from rfl),
    UInt8_and_ne_zero _ 2 (show (2 : UInt8).toNat = 2 ^ 1 from rfl), UInt8_and_ne_zero _ 4 (show (4 : UInt8).toNat = 2 ^ 2 from rfl),
    UInt8_and_ne_zero _ 8 (show (8 : UInt8).toNat = 2 ^ 3 from rfl), UInt8_and_ne_zero _ 16 (show (16 : UInt8).toNat = 2 ^ 4 from rfl),
    hc0, generatorMultiple, Nat.xor_assoc]
  rfl


theorem gf_ite (b : Bool) (n : Nat) : gf (if b then n else 0) = if b then gf n else 0 := by
  cases b <;> simp [gf]

theorem polyOf_ite {b : Bool} {n : Nat} {e : GF32} {k : GF32[X]} (h : polyOf n = C e * k) :
    polyOf (if b then n else 0) = C (if b then e else 0) * k := by
  cases b
  · simp [polyOf_of_lt (show 0 < 32 by decide), gf]
  · exact h

/-- The conditional exclusive ors add `c0 * k(x)`: each set bit `n` of `c0`
adds `{2^n} k(x)`. -/
theorem polyOf_generatorMultiple {c0 : Nat} (h : c0 < 32) :
    polyOf (generatorMultiple c0) = C (gf c0) * (X ^ 6 %ₘ generator) := by
  obtain ⟨h0, h1, h2, h3, h4⟩ := polyOf_constants
  -- `c0` is the exclusive or of its five bits
  have hbits : c0 = (if c0.testBit 0 then 1 else 0) ^^^ (if c0.testBit 1 then 2 else 0) ^^^
      (if c0.testBit 2 then 4 else 0) ^^^ (if c0.testBit 3 then 8 else 0) ^^^ (if c0.testBit 4 then 16 else 0) := by
    revert c0
    decide
  have hgf : gf c0 = (if c0.testBit 0 then gf 1 else 0) + (if c0.testBit 1 then gf 2 else 0) +
      (if c0.testBit 2 then gf 4 else 0) + (if c0.testBit 3 then gf 8 else 0) + (if c0.testBit 4 then gf 16 else 0) := by
    conv_lhs => rw [hbits]
    rw [gf_xor, gf_xor, gf_xor, gf_xor, gf_ite, gf_ite, gf_ite, gf_ite, gf_ite]
  rw [generatorMultiple, polyOf_xor, polyOf_xor, polyOf_xor, polyOf_xor, polyOf_ite h0, polyOf_ite h1, polyOf_ite h2,
    polyOf_ite h3, polyOf_ite h4, hgf]
  simp only [map_add]
  ring


theorem polyOf_shiftLeft (c : Nat) : polyOf ((c % 2 ^ 25) <<< 5) = packedPoly fieldModulus 5 5 c * X :=
  packedPoly_shiftLeft fieldModulus 5 5 c

theorem polyOf_eq_low_add_top (c : Nat) :
    polyOf c = packedPoly fieldModulus 5 5 c + C (gf (c >>> 25)) * X ^ 5 :=
  packedPoly_succ fieldModulus 5 5 c

/-- One pass of the loop is one Horner step modulo `g`. -/
theorem polyOf_PolyModStep (c : UInt32) (v : UInt8) (hc : c.toNat < 2 ^ 30) (hv : v.toNat < 32) :
    polyOf (PolyModStep c v).toNat = (polyOf c.toNat * X + C (gf v.toNat)) %ₘ generator := by
  have htop : c.toNat >>> 25 < 32 := by
    rw [Nat.shiftRight_eq_div_pow]
    omega
  have hcoeff : (polyOf c.toNat).coeff 5 = gf (c.toNat >>> 25) := coeff_polyOf c.toNat 5
  rw [toNat_PolyModStep c v hc, polyOf_xor, polyOf_xor, polyOf_shiftLeft, polyOf_of_lt hv,
    polyOf_generatorMultiple htop, X_pow_six_modByMonic,
    mul_X_add_C_modByMonic_of_degree_lt generator_monic natDegree_generator (degree_polyOf_lt _), hcoeff,
    polyOf_eq_low_add_top c.toNat, generator_eq]
  -- what is left differs by `2 * c0 * k(x)`
  linear_combination (C (gf (c.toNat >>> 25)) * polyOf 0x3b6a57b2) * poly_two_eq_zero

theorem generatorMultiple_lt (c0 : Nat) : generatorMultiple c0 < 2 ^ 30 := by
  have hite : ∀ (b : Bool) (k : Nat), k < 2 ^ 30 → (if b then k else 0) < 2 ^ 30 := by
    intro b k hk
    split
    · exact hk
    · positivity
  unfold generatorMultiple
  repeat' apply Nat.xor_lt_two_pow
  all_goals exact hite _ _ (by decide)

theorem PolyModStep_lt (c : UInt32) (v : UInt8) (hc : c.toNat < 2 ^ 30) (hv : v.toNat < 32) :
    (PolyModStep c v).toNat < 2 ^ 30 := by
  rw [toNat_PolyModStep c v hc]
  refine Nat.xor_lt_two_pow (Nat.xor_lt_two_pow ?_ (by omega)) (generatorMultiple_lt _)
  rw [Nat.shiftLeft_eq]
  omega

/-! ## The loop -/

/-- Horner's scheme as `PolyMod` applies it: the coefficients `v` after
those of `p`. -/
noncomputable def horner (v : List UInt8) (p : GF32[X]) : GF32[X] :=
  v.foldl (fun p a => p * X + C (gf a.toNat)) p

/-- `x ^ |v| + ∑ v_i x ^ (|v| - 1 - i)`, the polynomial of `v` with the
implicit leading one. -/
noncomputable def inputPoly (v : List UInt8) : GF32[X] :=
  X ^ v.length + ∑ i ∈ Finset.range v.length, C (gf (v.getD i 0).toNat) * X ^ (v.length - 1 - i)

theorem horner_eq (v : List UInt8) (p : GF32[X]) :
    horner v p = p * X ^ v.length + ∑ i ∈ Finset.range v.length, C (gf (v.getD i 0).toNat) * X ^ (v.length - 1 - i) := by
  induction v generalizing p with
  | nil => simp [horner]
  | cons a v ih =>
    rw [horner, List.foldl_cons, ← horner, ih, List.length_cons, Finset.sum_range_succ']
    -- the first value goes with the highest power
    have hexp : ∀ i ∈ Finset.range v.length,
        C (gf ((a :: v).getD (i + 1) 0).toNat) * X ^ (v.length + 1 - 1 - (i + 1)) =
          C (gf (v.getD i 0).toNat) * X ^ (v.length - 1 - i) := by
      intro i _
      rw [List.getD_cons_succ, show v.length + 1 - 1 - (i + 1) = v.length - 1 - i by omega]
    rw [Finset.sum_congr rfl hexp, List.getD_cons_zero, show v.length + 1 - 1 - 0 = v.length by omega]
    ring

theorem horner_append (v w : List UInt8) (p : GF32[X]) : horner (v ++ w) p = horner w (horner v p) :=
  List.foldl_append

theorem horner_zeros (n : Nat) (p : GF32[X]) : horner (List.replicate n 0) p = p * X ^ n := by
  rw [horner_eq, List.length_replicate, Finset.sum_eq_zero fun i _ => by simp [gf], add_zero]

theorem inputPoly_eq_horner (v : List UInt8) : inputPoly v = horner v 1 := by
  rw [inputPoly, horner_eq, one_mul]

theorem polyOf_one : polyOf 1 = 1 := by
  rw [polyOf_of_lt (by decide), gf_one, map_one]

theorem one_modByMonic_generator : (1 : GF32[X]) %ₘ generator = 1 := by
  rw [modByMonic_eq_self_iff generator_monic, degree_generator, degree_one]
  decide

/-- The loop from any reduced word: every pass keeps the word below
`2 ^ 30` and its polynomial the remainder of the Horner sum so far. -/
theorem foldl_PolyModStep (v : List UInt8) (hv : ∀ a ∈ v, a.toNat < 32) (c : UInt32) (p : GF32[X])
    (hc : c.toNat < 2 ^ 30) (hp : polyOf c.toNat = p %ₘ generator) :
    (v.foldl PolyModStep c).toNat < 2 ^ 30 ∧ polyOf (v.foldl PolyModStep c).toNat = horner v p %ₘ generator := by
  induction v generalizing c p with
  | nil => exact ⟨hc, hp⟩
  | cons a v ih =>
    have ha := hv a List.mem_cons_self
    refine ih (fun b hb => hv b (List.mem_cons_of_mem a hb)) (PolyModStep c a) (p * X + C (gf a.toNat))
      (PolyModStep_lt c a hc ha) ?_
    rw [polyOf_PolyModStep c a hc ha, hp, ← mul_X_add_C_modByMonic generator_monic]

/-- `PolyMod` of five-bit values is the remainder of `inputPoly v` modulo
`g`, six coefficients below `2 ^ 30`. -/
theorem PolyMod_eq (v : List UInt8) (hv : ∀ a ∈ v, a.toNat < 32) :
    (PolyMod v).toNat < 2 ^ 30 ∧ polyOf (PolyMod v).toNat = inputPoly v %ₘ generator := by
  rw [inputPoly_eq_horner]
  exact foldl_PolyModStep v hv 1 1 (by decide) (by rw [one_modByMonic_generator]; exact polyOf_one)

/-! ## The checksum -/

theorem ExpandHRP_lt (hrp : List UInt8) : ∀ a ∈ ExpandHRP hrp, a.toNat < 32 := by
  intro a ha
  simp only [ExpandHRP, List.mem_append, List.mem_map, List.mem_singleton] at ha
  rcases ha with (⟨c, _, rfl⟩ | rfl) | ⟨c, _, rfl⟩
  · rw [UInt8.toNat_shiftRight, Nat.shiftRight_eq_div_pow]
    have := c.toNat_lt
    simp only [UInt8.reduceToNat, Nat.reduceMod]
    omega
  · decide
  · rw [UInt8.toNat_and]
    exact lt_of_le_of_lt Nat.and_le_right (by decide)

theorem PolyMod_inj {a b : UInt32} (ha : a.toNat < 2 ^ 30) (hb : b.toNat < 2 ^ 30)
    (h : polyOf a.toNat = polyOf b.toNat) : a = b :=
  UInt32.toNat_inj.mp (packedPoly_inj fieldModulus degree_fieldModulus ha hb h)

theorem toNat_checksum_value (mod : UInt32) {i : Nat} (hi : i < 6) :
    ((mod >>> (5 * (5 - i)).toUInt32) &&& 31).toUInt8.toNat = (mod.toNat >>> (5 * (5 - i))) % 32 := by
  have hshift : (5 * (5 - i)).toUInt32.toNat % 32 = 5 * (5 - i) := by
    rw [Nat.toUInt32, UInt32.toNat_ofNat_of_lt' (by rw [show UInt32.size = 2 ^ 32 from rfl]; omega)]
    omega
  rw [UInt32.toNat_toUInt8, UInt32.toNat_and, UInt32.toNat_shiftRight, hshift,
    show (31 : UInt32).toNat = 2 ^ 5 - 1 from rfl, Nat.and_two_pow_sub_one_eq_mod]
  omega

/-- The six checksum values spell the word they were cut from, highest
group first. -/
theorem horner_checksum (mod : UInt32) (p : GF32[X]) :
    horner ((List.range 6).map fun i => ((mod >>> (5 * (5 - i)).toUInt32) &&& 31).toUInt8) p =
      p * X ^ 6 + polyOf mod.toNat := by
  have hterm : ∀ i ∈ Finset.range 6,
      C (gf (((List.range 6).map fun i => ((mod >>> (5 * (5 - i)).toUInt32) &&& 31).toUInt8).getD i 0).toNat) *
        X ^ (6 - 1 - i) = C (gf (mod.toNat >>> (5 * (6 - 1 - i)))) * X ^ (6 - 1 - i) := by
    intro i hi
    rw [Finset.mem_range] at hi
    rw [List.getD_eq_getElem _ _ (by simpa using hi), List.getElem_map, List.getElem_range,
      toNat_checksum_value mod hi, gf_mod, show 6 - 1 - i = 5 - i by omega]
  rw [horner_eq, List.length_map, List.length_range, Finset.sum_congr rfl hterm,
    Finset.sum_range_reflect (fun j => C (gf (mod.toNat >>> (5 * j))) * X ^ j) 6]
  rfl

theorem CreateChecksum_lt (hrp values : List UInt8) : ∀ a ∈ CreateChecksum hrp values, a.toNat < 32 := by
  intro a ha
  simp only [CreateChecksum, List.mem_map, List.mem_range] at ha
  obtain ⟨i, hi, rfl⟩ := ha
  rw [toNat_checksum_value _ hi]
  exact Nat.mod_lt _ (by decide)

/-- The checksum that `CreateChecksum` appends to five-bit values makes
`VerifyChecksum` hold. -/
theorem VerifyChecksum_CreateChecksum (hrp values : List UInt8) (hv : ∀ a ∈ values, a.toNat < 32) :
    VerifyChecksum hrp (values ++ CreateChecksum hrp values) = true := by
  have hu : ∀ a ∈ ExpandHRP hrp ++ values, a.toNat < 32 := by
    intro a ha
    rcases List.mem_append.mp ha with h | h
    exacts [ExpandHRP_lt hrp a h, hv a h]
  have henc : ∀ a ∈ ExpandHRP hrp ++ values ++ List.replicate 6 0, a.toNat < 32 := by
    intro a ha
    rcases List.mem_append.mp ha with h | h
    exacts [hu a h, by rw [List.eq_of_mem_replicate h]; decide]
  obtain ⟨hlt, hpoly⟩ := PolyMod_eq _ henc
  -- the word the checksum is cut from: the remainder of the input times `x ^ 6`, plus one
  have hmod : polyOf (PolyMod (ExpandHRP hrp ++ values ++ List.replicate 6 0) ^^^ 1).toNat =
      (horner (ExpandHRP hrp ++ values) 1 * X ^ 6) %ₘ generator + 1 := by
    rw [UInt32.toNat_xor, polyOf_xor, hpoly, inputPoly_eq_horner, horner_append, horner_zeros]
    exact congrArg _ polyOf_one
  have hall : ∀ a ∈ ExpandHRP hrp ++ values ++ CreateChecksum hrp values, a.toNat < 32 := by
    intro a ha
    rcases List.mem_append.mp ha with h | h
    exacts [hu a h, CreateChecksum_lt hrp values a h]
  obtain ⟨hlt', hpoly'⟩ := PolyMod_eq _ hall
  have hone : polyOf (PolyMod (ExpandHRP hrp ++ values ++ CreateChecksum hrp values)).toNat = polyOf (1 : UInt32).toNat := by
    set P := horner (ExpandHRP hrp ++ values) 1 * X ^ 6
    rw [hpoly', inputPoly_eq_horner, horner_append, CreateChecksum, horner_checksum, hmod]
    rw [modByMonic_eq_of_dvd_sub generator_monic ⟨P /ₘ generator, ?_⟩, one_modByMonic_generator]
    · exact polyOf_one.symm
    · linear_combination (-1 : GF32[X]) * modByMonic_add_div P generator + (P %ₘ generator) * poly_two_eq_zero
  rw [VerifyChecksum, ← List.append_assoc, PolyMod_inj hlt' (by decide) hone]
  rfl

/-! ## Characters -/

theorem toNat_ToUpper (c : UInt8) :
    (ToUpper c).toNat = if 97 ≤ c.toNat ∧ c.toNat ≤ 122 then c.toNat - 32 else c.toNat := by
  unfold ToUpper
  simp only [ge_iff_le, UInt8.le_iff_toNat_le, UInt8.reduceToNat]
  split
  · rw [UInt8.toNat_add, UInt8.toNat_sub]
    simp only [UInt8.reduceToNat]
    omega
  · rfl

theorem toNat_LowerCase (c : UInt8) :
    (LowerCase c).toNat = if 65 ≤ c.toNat ∧ c.toNat ≤ 90 then c.toNat + 32 else c.toNat := by
  unfold LowerCase
  simp only [ge_iff_le, UInt8.le_iff_toNat_le, UInt8.reduceToNat]
  split
  · rw [UInt8.toNat_add, UInt8.toNat_sub]
    simp only [UInt8.reduceToNat]
    omega
  · rfl

theorem LowerCase_ToUpper {c : UInt8} (h : ¬(65 ≤ c ∧ c ≤ 90)) : LowerCase (ToUpper c) = c := by
  rw [← UInt8.toNat_inj, toNat_LowerCase, toNat_ToUpper]
  simp only [UInt8.le_iff_toNat_le, UInt8.reduceToNat] at h
  split_ifs <;> omega
theorem ToUpper_printable {c : UInt8} (h : 33 ≤ c ∧ c ≤ 126) :
    33 ≤ ToUpper c ∧ ToUpper c ≤ 126 ∧ ¬(97 ≤ ToUpper c ∧ ToUpper c ≤ 122) := by
  simp only [UInt8.le_iff_toNat_le, UInt8.reduceToNat, toNat_ToUpper] at h ⊢
  split_ifs <;> omega
theorem ToUpper_eq_separator (c : UInt8) : ToUpper c = 49 ↔ c = 49 := by
  rw [← UInt8.toNat_inj, ← UInt8.toNat_inj, toNat_ToUpper]
  simp only [UInt8.reduceToNat]
  split_ifs <;> omega

/-! ## Decoding -/

/-- The first loop of `Decode` on printable characters: it reports each case
of letter the string holds. -/
theorem caseScan_eq : ∀ (str : List UInt8) (lower upper : Bool), (∀ c ∈ str, 33 ≤ c ∧ c ≤ 126) →
    caseScan str lower upper =
      some (lower || str.any (fun c => decide (c ≥ 97 ∧ c ≤ 122)), upper || str.any (fun c => decide (c ≥ 65 ∧ c ≤ 90)))
  | [], _, _, _ => by simp [caseScan]
  | c :: str, lower, upper, h => by
    have hc := h c List.mem_cons_self
    have ih := fun l u => caseScan_eq str l u fun x hx => h x (List.mem_cons_of_mem c hx)
    simp only [UInt8.le_iff_toNat_le, UInt8.reduceToNat, ge_iff_le] at hc ih ⊢
    rw [caseScan]
    simp only [UInt8.le_iff_toNat_le, UInt8.lt_iff_toNat_lt, UInt8.reduceToNat, ge_iff_le, List.any_cons]
    split_ifs with hl hu hp
    · rw [ih]
      simp [hl, show ¬(65 ≤ c.toNat ∧ c.toNat ≤ 90) by omega]
    · rw [ih]
      simp [hl, hu]
    · omega
    · rw [ih]
      simp [hl, hu]

theorem rfind_eq (a b : List UInt8) (ch : UInt8) (hb : ∀ x ∈ b, x ≠ ch) :
    rfind (a ++ [ch] ++ b) ch = some a.length := by
  have hnone : b.reverse.findIdx? (· == ch) = none :=
    List.findIdx?_eq_none_iff.mpr fun x hx => by simpa using hb x (List.mem_reverse.mp hx)
  rw [rfind, List.reverse_append, List.reverse_append, List.append_assoc, List.findIdx?_append, hnone,
    List.reverse_singleton]
  simp only [List.singleton_append]
  rw [List.findIdx?_cons, if_pos (beq_self_eq_true ch)]
  simp only [Option.map_some, Option.none_or, List.length_reverse, List.length_append, List.length_cons]
  congr 1
  omega

theorem readValues_map (w : List UInt8) (f : UInt8 → UInt8) (hf : ∀ c ∈ w, charValue (f c) = some c) :
    readValues (w.map f) = some w := by
  induction w with
  | nil => rfl
  | cons c w ih =>
    rw [List.map_cons, readValues, List.mapM_cons, ← readValues, ih fun x hx => hf x (List.mem_cons_of_mem c hx),
      hf c List.mem_cons_self]
    rfl

/-- The character table, both ways: each value's character reads back as the
value in either case, is not the separator `1`, and is a lower-case letter or
a digit. -/
theorem CHARSET_table : ∀ c : Fin 32, charValue (CHARSET.getD c.val 0) = some c.val.toUInt8 ∧
    charValue (ToUpper (CHARSET.getD c.val 0)) = some c.val.toUInt8 ∧ CHARSET.getD c.val 0 ≠ 49 ∧
      (97 ≤ CHARSET.getD c.val 0 ∧ CHARSET.getD c.val 0 ≤ 122 ∨ 48 ≤ CHARSET.getD c.val 0 ∧ CHARSET.getD c.val 0 ≤ 57) := by
  decide

theorem CHARSET_getD {c : UInt8} (hc : c.toNat < 32) :
    charValue (CHARSET.getD c.toNat 0) = some c ∧ charValue (ToUpper (CHARSET.getD c.toNat 0)) = some c ∧
      CHARSET.getD c.toNat 0 ≠ 49 ∧
      (97 ≤ CHARSET.getD c.toNat 0 ∧ CHARSET.getD c.toNat 0 ≤ 122 ∨ 48 ≤ CHARSET.getD c.toNat 0 ∧ CHARSET.getD c.toNat 0 ≤ 57) := by
  have h := CHARSET_table ⟨c.toNat, hc⟩
  dsimp only at h
  rwa [show c.toNat.toUInt8 = c from UInt8.ofNat_toNat] at h

/-- What `Decode` returns for a string that passes all its checks. -/
theorem Decode_eq {hrp' enc hrp values : List UInt8}
    (hprint : ∀ c ∈ hrp' ++ [49] ++ enc, 33 ≤ c ∧ c ≤ 126)
    (hcase : (hrp' ++ [49] ++ enc).any (fun c => decide (c ≥ 97 ∧ c ≤ 122)) = false ∨
      (hrp' ++ [49] ++ enc).any (fun c => decide (c ≥ 65 ∧ c ≤ 90)) = false)
    (hsep : ∀ c ∈ enc, c ≠ 49) (hne : hrp' ≠ []) (hlen : hrp'.length + enc.length + 1 ≤ 90) (h6 : 6 ≤ enc.length)
    (hvals : readValues enc = some values) (hlow : hrp'.map LowerCase = hrp)
    (hcheck : VerifyChecksum hrp values = true) :
    Decode (hrp' ++ [49] ++ enc) = (hrp, values.take (values.length - 6)) := by
  have hpos : 0 < hrp'.length := List.length_pos_iff.mpr hne
  have hmixed : ((false || (hrp' ++ [49] ++ enc).any (fun c => decide (c ≥ 97 ∧ c ≤ 122))) &&
      (false || (hrp' ++ [49] ++ enc).any (fun c => decide (c ≥ 65 ∧ c ≤ 90)))) = false := by
    rcases hcase with h | h <;> rw [h] <;> simp
  have hdrop : (hrp' ++ [49] ++ enc).drop (hrp'.length + 1) = enc := by simp
  have htake : (hrp' ++ [49] ++ enc).take hrp'.length = hrp' := by simp
  unfold Decode
  rw [caseScan_eq _ false false hprint]
  dsimp only
  rw [if_neg (by rw [hmixed]; decide), rfind_eq hrp' enc 49 hsep]
  dsimp only
  rw [if_neg (by simp only [List.length_append, List.length_singleton]; omega), hdrop, hvals]
  dsimp only
  rw [htake, hlow, hcheck]
  rfl

/-- `Decode` takes a string whose last separator is its first character for
a failure. -/
theorem Decode_of_separator_first {str : List UInt8} (h : rfind str 49 = some 0) : Decode str = ([], []) := by
  unfold Decode
  split
  · rfl
  · split
    · rfl
    · rw [h]
      simp

theorem LowerCase_of_not_upper {c : UInt8} (h : ¬(65 ≤ c ∧ c ≤ 90)) : LowerCase c = c :=
  if_neg h

/-- `Encode` of a human-readable part without upper-case letters. -/
theorem Encode_eq (hrp values : List UInt8) (h : ∀ c ∈ hrp, ¬(65 ≤ c ∧ c ≤ 90)) :
    Encode hrp values = .ok (hrp ++ [49] ++ (values ++ CreateChecksum hrp values).map fun c => CHARSET.getD c.toNat 0) := by
  refine if_pos (List.all_eq_true.mpr fun c hc => ?_)
  have hc := h c hc
  simp only [UInt8.le_iff_toNat_le, UInt8.lt_iff_toNat_lt, UInt8.reduceToNat] at hc ⊢
  simp only [Bool.or_eq_true, decide_eq_true_eq]
  omega

/-- The characters `Encode` writes after the separator. -/
theorem encoded_chars {w : List UInt8} (hw : ∀ c ∈ w, c.toNat < 32) :
    ∀ ch ∈ w.map (fun c => CHARSET.getD c.toNat 0),
      ch ≠ 49 ∧ 33 ≤ ch ∧ ch ≤ 126 ∧ ¬(65 ≤ ch ∧ ch ≤ 90) ∧ ¬(97 ≤ ToUpper ch ∧ ToUpper ch ≤ 122) := by
  intro ch hch
  obtain ⟨c, hc, rfl⟩ := List.mem_map.mp hch
  obtain ⟨-, -, hsep, hclass⟩ := CHARSET_getD (hw c hc)
  refine ⟨hsep, ?_⟩
  have hup := toNat_ToUpper (CHARSET.getD c.toNat 0)
  simp only [UInt8.le_iff_toNat_le, UInt8.reduceToNat] at hclass hup ⊢
  split_ifs at hup <;> omega

/-- `Decode` reads back what `Encode` wrote, and the same from its upper-case
form, for a non-empty human-readable part of printable characters without
upper-case letters, five-bit values and at most 90 characters in all. -/
theorem Decode_Encode (hrp data : List UInt8) (hne : hrp ≠ [])
    (hhrp : ∀ c ∈ hrp, 33 ≤ c ∧ c ≤ 126 ∧ ¬(65 ≤ c ∧ c ≤ 90)) (hdata : ∀ x ∈ data, x.toNat < 32)
    (hlen : hrp.length + data.length + 7 ≤ 90) :
    ∃ s, Encode hrp data = .ok s ∧ Decode s = (hrp, data) ∧ Decode (s.map ToUpper) = (hrp, data) := by
  set w := data ++ CreateChecksum hrp data with hw_def
  have hw : ∀ c ∈ w, c.toNat < 32 := by
    intro c hc
    rcases List.mem_append.mp hc with h | h
    exacts [hdata c h, CreateChecksum_lt hrp data c h]
  have hwlen : w.length = data.length + 6 := by simp [w, CreateChecksum]
  have htake : w.take (w.length - 6) = data := by
    rw [hwlen, Nat.add_sub_cancel]
    exact List.take_left' rfl
  have hcheck := VerifyChecksum_CreateChecksum hrp data hdata
  have henc := encoded_chars hw
  refine ⟨_, Encode_eq hrp data fun c hc => (hhrp c hc).2.2, ?_, ?_⟩
  · -- the lower-case form: no upper-case letter anywhere
    show Decode (hrp ++ [49] ++ w.map fun c : UInt8 => CHARSET.getD c.toNat 0) = (hrp, data)
    conv_rhs => rw [← htake]
    refine Decode_eq ?_ (.inr ?_) (fun c hc => (henc c hc).1) hne (by simp [hwlen]; omega) (by simp [hwlen])
      (readValues_map w _ fun c hc => (CHARSET_getD (hw c hc)).1)
      ((List.map_congr_left fun c hc => LowerCase_of_not_upper (hhrp c hc).2.2).trans (List.map_id hrp)) hcheck
    · intro c hc
      simp only [List.mem_append, List.mem_singleton] at hc
      rcases hc with (h | rfl) | h
      exacts [⟨(hhrp c h).1, (hhrp c h).2.1⟩, by decide, ⟨(henc c h).2.1, (henc c h).2.2.1⟩]
    · simp only [List.any_eq_false, decide_eq_true_eq]
      intro c hc
      simp only [List.mem_append, List.mem_singleton] at hc
      rcases hc with (h | rfl) | h
      exacts [(hhrp c h).2.2, by decide, (henc c h).2.2.2.1]
  · -- the upper-case form: no lower-case letter anywhere
    show Decode ((hrp ++ [49] ++ w.map fun c : UInt8 => CHARSET.getD c.toNat 0).map ToUpper) = (hrp, data)
    rw [List.map_append, List.map_append, List.map_singleton, show ToUpper 49 = 49 from rfl]
    conv_rhs => rw [← htake]
    have hprint : ∀ c ∈ hrp ++ [49] ++ w.map (fun c : UInt8 => CHARSET.getD c.toNat 0), 33 ≤ c ∧ c ≤ 126 := by
      intro c hc
      simp only [List.mem_append, List.mem_singleton] at hc
      rcases hc with (h | rfl) | h
      exacts [⟨(hhrp c h).1, (hhrp c h).2.1⟩, by decide, ⟨(henc c h).2.1, (henc c h).2.2.1⟩]
    refine Decode_eq ?_ (.inl ?_) ?_ (by simpa using hne) (by simp [hwlen]; omega) (by simp [hwlen]) ?_ ?_ hcheck
    · intro c hc
      rw [← show [ToUpper 49] = [49] from rfl, ← List.map_singleton, ← List.map_append, ← List.map_append] at hc
      obtain ⟨d, hd, rfl⟩ := List.mem_map.mp hc
      exact ⟨(ToUpper_printable (hprint d hd)).1, (ToUpper_printable (hprint d hd)).2.1⟩
    · simp only [List.any_eq_false, decide_eq_true_eq]
      intro c hc
      rw [← show [ToUpper 49] = [49] from rfl, ← List.map_singleton, ← List.map_append, ← List.map_append] at hc
      obtain ⟨d, hd, rfl⟩ := List.mem_map.mp hc
      exact (ToUpper_printable (hprint d hd)).2.2
    · intro c hc
      obtain ⟨d, hd, rfl⟩ := List.mem_map.mp hc
      exact fun h => (henc d hd).1 ((ToUpper_eq_separator d).mp h)
    · rw [List.map_map]
      exact readValues_map w _ fun c hc => (CHARSET_getD (hw c hc)).2.1
    · rw [List.map_map]
      exact (List.map_congr_left fun c hc => LowerCase_ToUpper (hhrp c hc).2.2).trans (List.map_id hrp)

theorem bech32_as_specified :
    (∀ v : List UInt8, (∀ a ∈ v, a < 32) →
      (PolyMod v).toNat < 2 ^ 30 ∧ polyOf (PolyMod v).toNat = inputPoly v %ₘ generator) ∧
    (polyOf 0x3b6a57b2 = C (gf 1) * (X ^ 6 %ₘ generator) ∧ polyOf 0x26508e6d = C (gf 2) * (X ^ 6 %ₘ generator) ∧
      polyOf 0x1ea119fa = C (gf 4) * (X ^ 6 %ₘ generator) ∧ polyOf 0x3d4233dd = C (gf 8) * (X ^ 6 %ₘ generator) ∧
      polyOf 0x2a1462b3 = C (gf 16) * (X ^ 6 %ₘ generator)) ∧
    (∀ hrp data : List UInt8, hrp ≠ [] → (∀ c ∈ hrp, 33 ≤ c ∧ c ≤ 126 ∧ ¬(65 ≤ c ∧ c ≤ 90)) →
      (∀ x ∈ data, x < 32) → hrp.length + data.length + 7 ≤ 90 →
      ∃ s, Encode hrp data = .ok s ∧ Decode s = (hrp, data) ∧ Decode (s.map ToUpper) = (hrp, data)) := by
  refine ⟨fun v hv => PolyMod_eq v fun a ha => UInt8.lt_iff_toNat_lt.mp (hv a ha), polyOf_constants, ?_⟩
  intro hrp data hne hhrp hdata hlen
  exact Decode_Encode hrp data hne hhrp (fun x hx => UInt8.lt_iff_toNat_lt.mp (hdata x hx)) hlen

theorem bech32_as_specified_bc :
    ((PolyMod [0, 31]).toNat < 2 ^ 30 ∧ polyOf (PolyMod [0, 31]).toNat = inputPoly [0, 31] %ₘ generator) ∧
      ∃ s, Encode [98, 99] [0, 31] = .ok s ∧ Decode s = ([98, 99], [0, 31]) ∧
        Decode (s.map ToUpper) = ([98, 99], [0, 31]) :=
  ⟨bech32_as_specified.1 [0, 31] (by simp),
    bech32_as_specified.2.2 [98, 99] [0, 31] (by simp) (by simp) (by simp) (by simp)⟩

/-- With an empty human-readable part the separator is the first character,
which `Decode` refuses: the data does not come back. -/
theorem bech32_empty_hrp_counterexample : ∃ s, Encode [] [0] = .ok s ∧ Decode s ≠ ([], [0]) := by
  have hw : ∀ c ∈ [0] ++ CreateChecksum [] [0], c.toNat < 32 := by
    intro c hc
    rcases List.mem_append.mp hc with h | h
    · rw [List.mem_singleton.mp h]
      decide
    · exact CreateChecksum_lt [] [0] c h
  refine ⟨_, Encode_eq [] [0] (by simp), ?_⟩
  rw [Decode_of_separator_first (rfind_eq [] _ 49 fun ch hch => (encoded_chars hw ch hch).1)]
  simp

end Palladium.Util.Bech32
